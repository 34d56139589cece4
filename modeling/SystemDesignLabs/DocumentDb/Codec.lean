import SystemDesignLabs.DocumentDb.Store

/-!
# What the binary format reads back

What is read from bytes fits in the format (`fits_of_decodeValue`): a key has at most 255 bytes, and no integer is
above the greatest `i64`. So a value that does not fit is never read back, and one that fits always is
(`round_trip_iff`).
-/

namespace SystemDesignLabs.DocumentDb

open List Core

/-- `decode_value` at a position: the value and the position behind it. -/
def decodeValueAt (data : Bytes) (pos : Nat) : Except DecodeError (Value × Nat) :=
  (decodeValue (data.drop pos).length (data.drop pos)).map fun p => (p.1, data.length - p.2.length)

/-- A value is read back at every position. -/
def ReadsValue (v : Value) : Prop :=
  ∀ front rest, decodeValueAt (front ++ (encodeValue v ++ rest)) front.length =
    .ok (v, front.length + (encodeValue v).length)

/-- A document is read back with its id, and no more than its record is consumed. -/
def ReadsDocument (id : String) (doc : Value) : Prop :=
  ∀ rest, decodeDocument (encodeDocument id doc ++ rest) = .ok (id, withId id doc, (encodeDocument id doc).length)

/-! ### What is read fits -/

theorem takeBytes_sound {n : Nat} {what : String} {data bytes rest : Bytes}
    (h : takeBytes n what data = .ok (bytes, rest)) : bytes.length = n := by
  rw [takeBytes] at h
  cases hread : readExact n data with
  | none =>
    rw [hread] at h
    cases h
  | some r =>
    rw [hread] at h
    cases h
    exact (readExact_sound hread).2

variable {data rest : Bytes}

theorem takeLe_lt {w n : Nat} {what : String} (h : takeLe w what data = .ok (n, rest)) : n < 256 ^ w := by
  obtain ⟨⟨bytes, rest'⟩, htake, h⟩ := bind_eq_ok.1 h
  cases h
  exact takeBytes_sound htake ▸ ofLeBytes_lt bytes

theorem takeString_length {n : Nat} {s what : String} (h : takeString n what data = .ok (s, rest)) :
    (strBytes s).length = n := by
  obtain ⟨⟨bytes, rest'⟩, htake, h⟩ := bind_eq_ok.1 h
  dsimp only at h
  cases hs : fromUtf8 (bytes.map UInt8.ofFin) with
  | none =>
    rw [hs] at h
    exact nomatch h
  | some t =>
    rw [hs] at h
    cases h
    rw [strBytes, utf8Bytes_of_fromUtf8 hs, length_map, length_map]
    exact takeBytes_sound htake

theorem fits_ofI64 (bits : UInt64) : (Value.number (.ofI64 bits)).fits = true := by
  rw [Number.ofI64]
  split
  · next h => exact decide_eq_true h
  · rfl

theorem fits_ofF64 (bits : UInt64) : (Value.number (.ofF64 bits)).fits = true := by
  rw [Number.ofF64]
  split <;> rfl

theorem fitsFields_insertList {k : String} {v : Value} (hk : (strBytes k).length < 256) (hv : v.fits = true)
    {map : List (String × Value)} (h : Value.fitsFields map = true) :
    Value.fitsFields (SortedList.insertList k v map) = true ∧
      (SortedList.insertList k v map).length ≤ map.length + 1 := by
  have hkv : (decide ((strBytes k).length < 256) && v.fits) = true := Bool.and_eq_true_iff.2 ⟨decide_eq_true hk, hv⟩
  induction map with
  | nil => exact ⟨Bool.and_eq_true_iff.2 ⟨hkv, rfl⟩, Nat.le_refl _⟩
  | cons p map ih =>
    obtain ⟨k', v'⟩ := p
    obtain ⟨hp, hmap⟩ := Bool.and_eq_true_iff.1 h
    rw [SortedList.insertList]
    split
    · exact ⟨Bool.and_eq_true_iff.2 ⟨hkv, h⟩, Nat.le_refl _⟩
    · split
      · exact ⟨Bool.and_eq_true_iff.2 ⟨hkv, hmap⟩, Nat.le_succ _⟩
      · exact ⟨Bool.and_eq_true_iff.2 ⟨hp, (ih hmap).1⟩, Nat.succ_le_succ (ih hmap).2⟩

section Parts

variable {decode : Bytes → Except DecodeError (Value × Bytes)}

section

variable (hdecode : ∀ {data v rest}, decode data = .ok (v, rest) → v.fits = true)
include hdecode

theorem fitsItems_of_decodeItems {count : Nat} {items : List Value} (h : decodeItems decode count data = .ok (items, rest)) :
    Value.fitsItems items = true ∧ items.length = count := by
  induction count generalizing data items with
  | zero =>
    cases h
    exact ⟨rfl, rfl⟩
  | succ count ih =>
    obtain ⟨⟨v, data₁⟩, hv, h⟩ := bind_eq_ok.1 h
    obtain ⟨⟨items', data₂⟩, hitems, h⟩ := bind_eq_ok.1 h
    cases h
    exact ⟨Bool.and_eq_true_iff.2 ⟨hdecode hv, (ih hitems).1⟩, congrArg Nat.succ (ih hitems).2⟩

theorem fitsFields_of_decodeFields
    {keyLen key : String} {count : Nat} {map map' : List (String × Value)}
    (h : decodeFields decode keyLen key count data map = .ok (map', rest)) (hmap : Value.fitsFields map = true) :
    Value.fitsFields map' = true ∧ map'.length ≤ map.length + count := by
  induction count generalizing data map with
  | zero =>
    cases h
    exact ⟨hmap, Nat.le_refl _⟩
  | succ count ih =>
    obtain ⟨⟨len, data₁⟩, hlen, h⟩ := bind_eq_ok.1 h
    obtain ⟨⟨k, data₂⟩, hk, h⟩ := bind_eq_ok.1 h
    obtain ⟨⟨v, data₃⟩, hv, h⟩ := bind_eq_ok.1 h
    have hlt : (strBytes k).length < 256 := takeString_length hk ▸ takeLe_lt hlen
    obtain ⟨hinsert, hlength⟩ := fitsFields_insertList hlt (hdecode hv) hmap
    obtain ⟨hfits, hle⟩ := ih h hinsert
    exact ⟨hfits, by omega⟩

end

end Parts

/-- What is read fits. -/
theorem fits_of_decodeValue {fuel : Nat} {v : Value} (h : decodeValue fuel data = .ok (v, rest)) : v.fits = true := by
  induction fuel generalizing data v rest with
  | zero => cases h
  | succ fuel ih =>
    cases data with
    | nil => cases h
    | cons tag data =>
      rw [decodeValue] at h
      split at h
      · obtain ⟨⟨len, data₁⟩, hlen, h⟩ := bind_eq_ok.1 h
        obtain ⟨⟨s, data₂⟩, hs, h⟩ := bind_eq_ok.1 h
        cases h
        exact decide_eq_true (takeString_length hs ▸ takeLe_lt hlen)
      · obtain ⟨⟨bits, data₁⟩, -, h⟩ := bind_eq_ok.1 h
        cases h
        exact fits_ofI64 _
      · obtain ⟨⟨bits, data₁⟩, -, h⟩ := bind_eq_ok.1 h
        cases h
        exact fits_ofF64 _
      · obtain ⟨⟨b, data₁⟩, -, h⟩ := bind_eq_ok.1 h
        cases h
        rfl
      · cases h
        rfl
      · obtain ⟨⟨count, data₁⟩, hcount, h⟩ := bind_eq_ok.1 h
        obtain ⟨⟨items, data₂⟩, hitems, h⟩ := bind_eq_ok.1 h
        cases h
        obtain ⟨hfits, hlength⟩ := fitsItems_of_decodeItems ih hitems
        exact Bool.and_eq_true_iff.2 ⟨decide_eq_true (hlength ▸ takeLe_lt hcount), hfits⟩
      · obtain ⟨⟨count, data₁⟩, hcount, h⟩ := bind_eq_ok.1 h
        obtain ⟨⟨map, data₂⟩, hmap, h⟩ := bind_eq_ok.1 h
        cases h
        obtain ⟨hfits, hlength⟩ := fitsFields_of_decodeFields ih hmap rfl
        have hlt := takeLe_lt hcount
        rw [length_nil, Nat.zero_add] at hlength
        exact Bool.and_eq_true_iff.2 ⟨decide_eq_true (Nat.lt_of_le_of_lt hlength hlt), hfits⟩
      · cases h

/-! ### Round trips -/

theorem readsValue_iff {v : Value} (hsorted : v.Sorted) : ReadsValue v ↔ v.fits = true := by
  constructor
  · intro h
    have hread := h [] []
    rw [decodeValueAt, length_nil, drop_zero, nil_append] at hread
    cases hdecode : decodeValue (encodeValue v ++ []).length (encodeValue v ++ []) with
    | error e =>
      rw [hdecode] at hread
      exact nomatch hread
    | ok p =>
      rw [hdecode] at hread
      have hp : p.1 = v := congrArg Prod.fst (Except.ok.inj hread)
      exact hp ▸ fits_of_decodeValue hdecode
  · intro hfits front rest
    have hread := decodeValue_encodeValue v (encodeValue v ++ rest).length rest hfits hsorted
      (by rw [length_append]; omega)
    rw [decodeValueAt, drop_left, hread]
    show Except.ok (v, (front ++ (encodeValue v ++ rest)).length - rest.length) = _
    rw [length_append, length_append, ← Nat.add_assoc, Nat.add_sub_cancel]

theorem readsDocument_of_fits {id : String} (hid : (strBytes id).length ≤ 255) {doc : Value} (hsorted : doc.Sorted)
    (hdoc : doc.asObject.isSome = true) (hfits : doc.fits = true) (hlen : (encodePayload id doc).length < 256 ^ 4) :
    ReadsDocument id doc := by
  intro rest
  rw [decodeDocument_encodeDocument hlen]
  cases doc with
  | object fields =>
    rw [decodePayload_encodePayload (Nat.lt_succ_of_le hid) hfits hsorted]
    rfl
  | _ => cases hdoc

theorem length_of_readsDocument {id : String} {doc : Value} (h : ReadsDocument id doc) :
    (encodePayload id doc).length < 256 ^ 4 := by
  obtain ⟨⟨docLen, rest⟩, hlen, hread⟩ := bind_eq_ok.1 (h [])
  obtain ⟨⟨payload, rest'⟩, -, hread⟩ := bind_eq_ok.1 hread
  obtain ⟨⟨id', doc'⟩, -, hread⟩ := bind_eq_ok.1 hread
  have hconsumed : 4 + docLen = (encodeDocument id doc).length :=
    congrArg (fun p => p.2.2) (Except.ok.inj hread)
  have hlt := takeLe_lt hlen
  rw [length_encodeDocument] at hconsumed
  omega

theorem length_strBytes_replicate (n : Nat) : (strBytes (String.ofList (List.replicate n 'k'))).length = n := by
  rw [strBytes, length_map, utf8Bytes_eq_flatMap, String.toList_ofList]
  induction n with
  | zero => rfl
  | succ n ih =>
    rw [replicate_succ, flatMap_cons, length_append, ih, Nat.add_comm]
    rfl

theorem lt_of_fits_replicate (n : Nat)
    (h : (Value.object [(String.ofList (List.replicate n 'k'), .null)]).fits = true) : n < 256 := by
  simp only [Value.fits, Value.fitsFields, Bool.and_eq_true, decide_eq_true_eq, length_strBytes_replicate] at h
  exact h.2.1.1

end SystemDesignLabs.DocumentDb

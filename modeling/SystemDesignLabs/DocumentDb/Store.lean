import SystemDesignLabs.Core.Bytes
import SystemDesignLabs.Core.Encodings
import SystemDesignLabs.Core.Fallible
import SystemDesignLabs.Core.Framing
import SystemDesignLabs.DocumentDb.Value

/-!
# The binary format of documents

Values are written with a tag for their type; lengths and counts are cast to the width of their field, so that
what is too large is cut off. `Value.fits` says that nothing is cut off and that integers fit in an `i64`.
Such a value is read back as it was (`decodeValue_encodeValue`), and so is a document (`decodeDocument_encodeDocument`),
whatever follows in the file. No proper front of its record is read (`decodeDocument_front`).
-/

namespace SystemDesignLabs.DocumentDb

open List Core

/-! ### Encoder -/

/-- `as_bytes`. -/
def strBytes (s : String) : Bytes :=
  (utf8Bytes s).map UInt8.toFin

/-- A length or count, cast to `w` bytes. -/
def lenBytes (w n : Nat) : Bytes :=
  leBytes w n

def encodeNumber (n : Number) : Bytes :=
  match n.asI64 with
  | some i => 0x02 :: leBytes 8 (i % 2 ^ 64).toNat
  | none => 0x03 :: leBytes 8 n.asF64

mutual

def encodeValue : Value → Bytes
  | .string s => 0x01 :: (lenBytes 4 (strBytes s).length ++ strBytes s)
  | .number n => encodeNumber n
  | .bool b => [0x04, if b then 0x01 else 0x00]
  | .null => [0x05]
  | .array items => 0x06 :: (lenBytes 4 items.length ++ encodeItems items)
  | .object fields => 0x07 :: (lenBytes 2 fields.length ++ encodeFields fields)

def encodeItems : List Value → Bytes
  | [] => []
  | v :: items => encodeValue v ++ encodeItems items

def encodeFields : List (String × Value) → Bytes
  | [] => []
  | (key, v) :: fields => lenBytes 1 (strBytes key).length ++ (strBytes key ++ (encodeValue v ++ encodeFields fields))

end

/-- The payload of `encode_document`. -/
def encodePayload (id : String) (doc : Value) : Bytes :=
  lenBytes 1 (strBytes id).length ++ (strBytes id ++
    match doc.asObject with
    | some fields => lenBytes 2 fields.length ++ encodeFields fields
    | none => lenBytes 2 0)

def encodeDocument (id : String) (doc : Value) : Bytes :=
  lenBytes 4 (encodePayload id doc).length ++ encodePayload id doc

/-! ### Decoder -/

/-- Why a record cannot be decoded. -/
inductive DecodeError where
  | unexpectedEof (what : String)
  | invalidUtf8
  | emptyPayload
  | unknownTypeTag (tag : Byte)
  deriving DecidableEq

/-- The next `n` bytes, and those after them. -/
def takeBytes (n : Nat) (what : String) (data : Bytes) : Except DecodeError (Bytes × Bytes) :=
  match readExact n data with
  | some r => .ok r
  | none => .error (.unexpectedEof what)

/-- The next number of `w` bytes. -/
def takeLe (w : Nat) (what : String) (data : Bytes) : Except DecodeError (Nat × Bytes) := do
  let (bytes, data) ← takeBytes w what data
  .ok (ofLeBytes bytes, data)

/-- The next `n` bytes as a text. -/
def takeString (n : Nat) (what : String) (data : Bytes) : Except DecodeError (String × Bytes) := do
  let (bytes, data) ← takeBytes n what data
  match fromUtf8 (bytes.map UInt8.ofFin) with
  | some s => .ok (s, data)
  | none => .error .invalidUtf8

/-- The items of an array. -/
def decodeItems (decode : Bytes → Except DecodeError (Value × Bytes)) : Nat → Bytes →
    Except DecodeError (List Value × Bytes)
  | 0, data => .ok ([], data)
  | count + 1, data => do
    let (v, data) ← decode data
    let (items, data) ← decodeItems decode count data
    .ok (v :: items, data)

/-- The fields of an object, into a map. -/
def decodeFields (decode : Bytes → Except DecodeError (Value × Bytes)) (keyLen key : String) : Nat → Bytes →
    List (String × Value) → Except DecodeError (List (String × Value) × Bytes)
  | 0, data, map => .ok (map, data)
  | count + 1, data, map => do
    let (len, data) ← takeLe 1 keyLen data
    let (k, data) ← takeString len key data
    let (v, data) ← decode data
    decodeFields decode keyLen key count data (SortedList.insertList k v map)

/-- `decode_value` on the bytes from its position on. A value takes a byte at least, which bounds how deep values
are nested. -/
def decodeValue : Nat → Bytes → Except DecodeError (Value × Bytes)
  | 0, _ => .error (.unexpectedEof "decode_value: eof")
  | _ + 1, [] => .error (.unexpectedEof "decode_value: eof")
  | fuel + 1, tag :: data =>
    match tag.val with
    | 0x01 => do
      let (len, data) ← takeLe 4 "string len" data
      let (s, data) ← takeString len "string data" data
      .ok (.string s, data)
    | 0x02 => do
      let (bits, data) ← takeLe 8 "int64" data
      .ok (.number (.ofI64 (.ofNat bits)), data)
    | 0x03 => do
      let (bits, data) ← takeLe 8 "float64" data
      .ok (.number (.ofF64 (.ofNat bits)), data)
    | 0x04 => do
      let (b, data) ← takeLe 1 "bool" data
      .ok (.bool (b ≠ 0), data)
    | 0x05 => .ok (.null, data)
    | 0x06 => do
      let (count, data) ← takeLe 4 "array count" data
      let (items, data) ← decodeItems (decodeValue fuel) count data
      .ok (.array items, data)
    | 0x07 => do
      let (count, data) ← takeLe 2 "object field_count" data
      let (map, data) ← decodeFields (decodeValue fuel) "object key_len" "object key" count data []
      .ok (.object map, data)
    | _ => .error (.unknownTypeTag tag)

/-- The id and the document of a payload. What follows the last field is ignored. -/
def decodePayload (payload : Bytes) : Except DecodeError (String × Value) := do
  if payload = [] then .error .emptyPayload
  else do
    let (idLen, data) ← takeLe 1 "id bytes" payload
    let (id, data) ← takeString idLen "id bytes" data
    let (count, data) ← takeLe 2 "field_count" data
    let (map, _) ← decodeFields (decodeValue payload.length) "field key_len" "field key" count data []
    .ok (id, .object (SortedList.insertList "_id" (.string id) map))

/-- `decode_document`: the id, the document and the bytes that the record takes. -/
def decodeDocument (data : Bytes) : Except DecodeError (String × Value × Nat) := do
  let (docLen, rest) ← takeLe 4 "doc_len" data
  let (payload, _) ← takeBytes docLen "doc payload" rest
  let (id, doc) ← decodePayload payload
  .ok (id, doc, 4 + docLen)

/-! ### What the format can carry -/

namespace Value

mutual

/-- Nothing is cut off when the value is written, and no integer is written as a double. -/
def fits : Value → Bool
  | string s => (strBytes s).length < 256 ^ 4
  | number (.posInt n) => n.toNat < 2 ^ 63
  | array items => items.length < 256 ^ 4 && fitsItems items
  | object fields => fields.length < 256 ^ 2 && fitsFields fields
  | _ => true

def fitsItems : List Value → Bool
  | [] => true
  | v :: items => v.fits && fitsItems items

def fitsFields : List (String × Value) → Bool
  | [] => true
  | (key, v) :: fields => (strBytes key).length < 256 && v.fits && fitsFields fields

end

end Value

/-! ### Reading back -/

theorem takeBytes_append (a data : Bytes) (what : String) : takeBytes a.length what (a ++ data) = .ok (a, data) := by
  rw [takeBytes, readExact_append]

theorem takeLe_leBytes {w n : Nat} (h : n < 256 ^ w) (what : String) (data : Bytes) :
    takeLe w what (leBytes w n ++ data) = .ok (n, data) := by
  have htake := takeBytes_append (leBytes w n) data what
  rw [length_leBytes] at htake
  rw [takeLe, htake]
  show Except.ok (ofLeBytes (leBytes w n), data) = _
  rw [ofLeBytes_leBytes, Nat.mod_eq_of_lt h]

theorem takeString_strBytes (s what : String) (data : Bytes) :
    takeString (strBytes s).length what (strBytes s ++ data) = .ok (s, data) := by
  rw [takeString, takeBytes_append]
  show (match fromUtf8 ((strBytes s).map UInt8.ofFin) with
    | some s => Except.ok (s, data)
    | none => Except.error DecodeError.invalidUtf8) = _
  rw [strBytes, fromUtf8_toFin]

theorem decodeValue_int64 {n : Nat} (h : n < 256 ^ 8) (fuel : Nat) (rest : Bytes) :
    decodeValue (fuel + 1) (0x02 :: (leBytes 8 n ++ rest)) = .ok (.number (.ofI64 (.ofNat n)), rest) := by
  show (takeLe 8 "int64" (leBytes 8 n ++ rest) >>= _) = _
  rw [takeLe_leBytes h]
  rfl

theorem decodeValue_float64 {n : Nat} (h : n < 256 ^ 8) (fuel : Nat) (rest : Bytes) :
    decodeValue (fuel + 1) (0x03 :: (leBytes 8 n ++ rest)) = .ok (.number (.ofF64 (.ofNat n)), rest) := by
  show (takeLe 8 "float64" (leBytes 8 n ++ rest) >>= _) = _
  rw [takeLe_leBytes h]
  rfl

theorem ofI64_bits {n : Number} {i : Int} (h : n.asI64 = some i) :
    (i % 2 ^ 64).toNat < 256 ^ 8 ∧ Number.ofI64 (.ofNat (i % 2 ^ 64).toNat) = n := by
  have hlt : (i % 2 ^ 64).toNat < 2 ^ 64 := by omega
  refine ⟨hlt, Number.ofI64_asI64 h ?_⟩
  rw [UInt64.toNat_ofNat_of_lt' hlt]
  omega

/-- A number is read back. -/
theorem decodeValue_encodeNumber {n : Number} (h : (Value.number n).fits = true) (fuel : Nat) (rest : Bytes) :
    decodeValue (fuel + 1) (encodeNumber n ++ rest) = .ok (.number n, rest) := by
  cases hi : n.asI64 with
  | some i =>
    obtain ⟨hlt, hn⟩ := ofI64_bits hi
    rw [encodeNumber, hi]
    show decodeValue (fuel + 1) (0x02 :: (leBytes 8 _ ++ rest)) = _
    rw [decodeValue_int64 hlt, hn]
  | none =>
    cases n with
    | posInt n =>
      have hlt : n.toNat < 2 ^ 63 := of_decide_eq_true h
      rw [Number.asI64, if_pos hlt] at hi
      cases hi
    | negInt i => cases hi
    | float bits =>
      have hlt : bits.1.toNat < 256 ^ 8 := bits.1.toNat_lt
      show decodeValue (fuel + 1) (0x03 :: (leBytes 8 bits.1.toNat ++ rest)) = _
      rw [decodeValue_float64 hlt, UInt64.ofNat_toNat, Number.ofF64, dif_pos bits.2]

mutual

/-- A value is read back, whatever follows. -/
theorem decodeValue_encodeValue : ∀ (v : Value) (fuel : Nat) (rest : Bytes), v.fits = true → v.Sorted →
    (encodeValue v).length ≤ fuel → decodeValue fuel (encodeValue v ++ rest) = .ok (v, rest)
  | v, 0, rest, _, _, hlen => by
    cases v with
    | number n =>
      rw [encodeValue, encodeNumber] at hlen
      split at hlen <;> cases hlen
    | _ => simp [encodeValue] at hlen
  | .string s, fuel + 1, rest, hfits, _, _ => by
    have hlt : (strBytes s).length < 256 ^ 4 := of_decide_eq_true hfits
    rw [encodeValue, cons_append, append_assoc]
    show (takeLe 4 "string len" (leBytes 4 (strBytes s).length ++ _) >>= _) = _
    rw [takeLe_leBytes hlt]
    show (takeString (strBytes s).length "string data" (strBytes s ++ rest) >>= _) = _
    rw [takeString_strBytes]
    rfl
  | .number n, fuel + 1, rest, hfits, _, _ => by
    rw [encodeValue]
    exact decodeValue_encodeNumber hfits fuel rest
  | .bool b, fuel + 1, rest, _, _, _ => by cases b <;> rfl
  | .null, fuel + 1, rest, _, _, _ => rfl
  | .array items, fuel + 1, rest, hfits, hsorted, hlen => by
    obtain ⟨hcount, hitems⟩ := Bool.and_eq_true_iff.1 hfits
    rw [encodeValue, cons_append, append_assoc]
    rw [encodeValue, length_cons, length_append] at hlen
    show (takeLe 4 "array count" (leBytes 4 items.length ++ _) >>= _) = _
    rw [takeLe_leBytes (of_decide_eq_true hcount)]
    show (decodeItems (decodeValue fuel) items.length (encodeItems items ++ rest) >>= _) = _
    rw [decodeItems_encodeItems items fuel rest hitems hsorted (by omega)]
    rfl
  | .object fields, fuel + 1, rest, hfits, hsorted, hlen => by
    obtain ⟨hcount, hfields⟩ := Bool.and_eq_true_iff.1 hfits
    rw [encodeValue, cons_append, append_assoc]
    rw [encodeValue, length_cons, length_append] at hlen
    show (takeLe 2 "object field_count" (leBytes 2 fields.length ++ _) >>= _) = _
    rw [takeLe_leBytes (of_decide_eq_true hcount)]
    show (decodeFields (decodeValue fuel) "object key_len" "object key" fields.length
      (encodeFields fields ++ rest) [] >>= _) = _
    rw [decodeFields_encodeFields fields fuel rest _ _ [] hfields hsorted.2 hsorted.1 (by omega)]
    rfl

theorem decodeItems_encodeItems : ∀ (items : List Value) (fuel : Nat) (rest : Bytes), Value.fitsItems items = true →
    Value.SortedItems items → (encodeItems items).length ≤ fuel →
    decodeItems (decodeValue fuel) items.length (encodeItems items ++ rest) = .ok (items, rest)
  | [], _, _, _, _, _ => rfl
  | v :: items, fuel, rest, hfits, hsorted, hlen => by
    obtain ⟨hv, hitems⟩ := Bool.and_eq_true_iff.1 hfits
    rw [encodeItems, length_append] at hlen
    rw [encodeItems, append_assoc, length_cons, decodeItems,
      decodeValue_encodeValue v fuel _ hv hsorted.1 (by omega)]
    show (decodeItems (decodeValue fuel) items.length (encodeItems items ++ rest) >>= _) = _
    rw [decodeItems_encodeItems items fuel rest hitems hsorted.2 (by omega)]
    rfl

theorem decodeFields_encodeFields : ∀ (fields : List (String × Value)) (fuel : Nat) (rest : Bytes) (keyLen key : String)
    (map : List (String × Value)), Value.fitsFields fields = true → Value.SortedFields fields →
    SortedList.Sorted (map ++ fields) → (encodeFields fields).length ≤ fuel →
    decodeFields (decodeValue fuel) keyLen key fields.length (encodeFields fields ++ rest) map =
      .ok (map ++ fields, rest)
  | [], _, _, _, _, map, _, _, _, _ => by
    rw [append_nil]
    rfl
  | (k, v) :: fields, fuel, rest, keyLen, key, map, hfits, hvalues, hsorted, hlen => by
    obtain ⟨hkv, hfields⟩ := Bool.and_eq_true_iff.1 hfits
    obtain ⟨hk, hv⟩ := Bool.and_eq_true_iff.1 hkv
    have hlt : (strBytes k).length < 256 ^ 1 := of_decide_eq_true hk
    rw [encodeFields] at hlen ⊢
    simp only [length_append] at hlen
    rw [append_assoc, append_assoc, append_assoc, length_cons, decodeFields, lenBytes, takeLe_leBytes hlt]
    show (takeString (strBytes k).length key (strBytes k ++ _) >>= _) = _
    rw [takeString_strBytes]
    show (decodeValue fuel (encodeValue v ++ (encodeFields fields ++ rest)) >>= _) = _
    rw [decodeValue_encodeValue v fuel _ hv hvalues.1 (by omega)]
    show decodeFields (decodeValue fuel) keyLen key fields.length (encodeFields fields ++ rest)
      (SortedList.insertList k v map) = _
    have hlast : ∀ p ∈ map, p.1 < k := fun p hp =>
      (pairwise_append.1 hsorted).2.2 p hp (k, v) mem_cons_self
    have hinsert : SortedList.insertList k v map = map ++ [(k, v)] := by
      have h := SortedList.insertList_append_left v [] hlast
      rwa [append_nil] at h
    have happend : map ++ (k, v) :: fields = (map ++ [(k, v)]) ++ fields := by
      rw [append_assoc, singleton_append]
    rw [happend] at hsorted
    rw [hinsert, happend]
    exact decodeFields_encodeFields fields fuel rest keyLen key _ hfields hvalues.2 hsorted (by omega)

end

/-! ### Documents -/

/-- What an insertion writes: the id that it generates and the document that it is given. -/
structure Record where
  id : String
  doc : Json

namespace Record

/-- The document as it is written, with its id embedded. -/
def stored (r : Record) : Value :=
  withId r.id r.doc.value

def encode (r : Record) : Bytes :=
  encodeDocument r.id r.stored

/-- The document is an object, and nothing of its record is cut off. -/
def fits (r : Record) : Bool :=
  r.doc.value.asObject.isSome && r.stored.fits && (strBytes r.id).length < 256
    && (encodePayload r.id r.stored).length < 256 ^ 4

theorem stored_sorted (r : Record) : r.stored.Sorted :=
  Value.sorted_withId r.id r.doc.sorted

end Record

theorem takeBytes_of_lt {n : Nat} {data : Bytes} (h : data.length < n) (what : String) :
    takeBytes n what data = .error (.unexpectedEof what) := by
  rw [takeBytes, readExact, if_neg (Nat.not_le.2 h)]

/-- A document is read back from its payload, with its id embedded. -/
theorem decodePayload_encodePayload {id : String} {fields : List (String × Value)} (hid : (strBytes id).length < 256)
    (hfits : (Value.object fields).fits = true) (hsorted : (Value.object fields).Sorted) :
    decodePayload (encodePayload id (.object fields)) = .ok (id, withId id (.object fields)) := by
  obtain ⟨hcount, hfields⟩ := Bool.and_eq_true_iff.1 hfits
  have hne : encodePayload id (.object fields) ≠ [] := by
    intro h
    have hlen := congrArg length h
    rw [encodePayload, length_append, lenBytes, length_leBytes, length_nil] at hlen
    omega
  have hfuel : (encodeFields fields).length ≤ (encodePayload id (.object fields)).length := by
    simp only [encodePayload, Value.asObject, length_append]
    omega
  have hlt : (strBytes id).length < 256 ^ 1 := hid
  have hread := decodeFields_encodeFields fields _ [] "field key_len" "field key" [] hfields hsorted.2 hsorted.1 hfuel
  rw [append_nil] at hread
  have hshape : encodePayload id (.object fields) =
      leBytes 1 (strBytes id).length ++ (strBytes id ++ (leBytes 2 fields.length ++ encodeFields fields)) := rfl
  rw [decodePayload, if_neg hne]
  rw [hshape] at hread ⊢
  rw [takeLe_leBytes hlt, ok_bind]
  dsimp only
  rw [takeString_strBytes, ok_bind]
  dsimp only
  rw [takeLe_leBytes (of_decide_eq_true hcount), ok_bind]
  dsimp only
  rw [hread]
  rfl

theorem length_encodeDocument (id : String) (doc : Value) :
    (encodeDocument id doc).length = 4 + (encodePayload id doc).length := by
  rw [encodeDocument, length_append, lenBytes, length_leBytes]

theorem decodeDocument_encodeDocument {id : String} {doc : Value} (hlen : (encodePayload id doc).length < 256 ^ 4)
    (rest : Bytes) : decodeDocument (encodeDocument id doc ++ rest) =
      (decodePayload (encodePayload id doc)).map fun p => (p.1, p.2, (encodeDocument id doc).length) := by
  rw [length_encodeDocument, encodeDocument, append_assoc, decodeDocument, lenBytes, takeLe_leBytes hlen]
  show (takeBytes (encodePayload id doc).length "doc payload" (encodePayload id doc ++ rest) >>= _) = _
  rw [takeBytes_append]
  show (decodePayload (encodePayload id doc) >>= _) = _
  cases decodePayload (encodePayload id doc) <;> rfl

namespace Record

variable {r : Record}

theorem fits_iff : r.fits = true ↔ r.doc.value.asObject.isSome ∧ r.stored.fits = true ∧ (strBytes r.id).length < 256
    ∧ (encodePayload r.id r.stored).length < 256 ^ 4 := by
  simp only [fits, Bool.and_eq_true, decide_eq_true_eq, and_assoc]

theorem decodePayload_stored (h : r.fits = true) :
    decodePayload (encodePayload r.id r.stored) = .ok (r.id, r.stored) := by
  obtain ⟨hobject, hfits, hid, -⟩ := fits_iff.1 h
  obtain ⟨fields, hfields⟩ : ∃ fields, r.stored = .object fields := by
    rw [stored]
    cases hdoc : r.doc.value with
    | object fields => exact ⟨_, rfl⟩
    | _ =>
      rw [hdoc] at hobject
      cases hobject
  have hread := @decodePayload_encodePayload r.id fields hid (hfields ▸ hfits) (hfields ▸ r.stored_sorted)
  rw [← hfields] at hread
  rw [hread, stored, withId_withId r.id r.doc.sorted]

/-- A record is read back, whatever follows. -/
theorem decodeDocument_encode (h : r.fits = true) (rest : Bytes) :
    decodeDocument (r.encode ++ rest) = .ok (r.id, r.stored, r.encode.length) := by
  rw [encode, decodeDocument_encodeDocument (fits_iff.1 h).2.2.2 rest, decodePayload_stored h]
  rfl

/-- No proper front of a record is read. -/
theorem decodeDocument_front (hlen : (encodePayload r.id r.stored).length < 256 ^ 4) {front : Bytes}
    (hfront : front <+: r.encode) (hne : front ≠ r.encode) :
    ∃ what, decodeDocument front = .error (.unexpectedEof what) := by
  by_cases hshort : front.length < 4
  · refine ⟨"doc_len", ?_⟩
    rw [decodeDocument, takeLe, takeBytes_of_lt hshort]
    rfl
  · -- the length is whole, and the payload is not
    obtain ⟨missing, hmissing⟩ := hfront
    have hpos : 0 < missing.length := length_pos_of_ne_nil fun hnil => hne (by rw [← hmissing, hnil, append_nil])
    rw [encode, encodeDocument, lenBytes] at hmissing
    obtain ⟨body, hbody⟩ : leBytes 4 (encodePayload r.id r.stored).length <+: front := by
      refine prefix_of_prefix_length_le ⟨_, hmissing.symm⟩ (prefix_append _ _) ?_
      rw [length_leBytes]
      omega
    rw [← hbody, append_assoc, append_cancel_left_eq] at hmissing
    have hcut : body.length < (encodePayload r.id r.stored).length := by
      rw [← hmissing, length_append]
      omega
    refine ⟨"doc payload", ?_⟩
    rw [← hbody, decodeDocument, takeLe_leBytes hlen]
    show (takeBytes (encodePayload r.id r.stored).length "doc payload" body >>= _) = _
    rw [takeBytes_of_lt hcut]
    rfl

theorem encode_ne_nil (r : Record) : r.encode ≠ [] := by
  intro h
  have hlen := congrArg length h
  rw [encode, encodeDocument, length_append, lenBytes, length_leBytes, length_nil] at hlen
  omega

end Record

/-- What a scan reads where a record begins, and how many bytes it takes. -/
def readRecord (data : Bytes) : Option ((String × Value) × Nat) :=
  match decodeDocument data with
  | .ok (id, doc, consumed) => some ((id, doc), consumed)
  | .error _ => none

/-- The records of a collection file. -/
def recordFormat : RecordFormat Record (String × Value) Byte where
  Valid := fun r => r.fits = true
  encode := Record.encode
  decode := readRecord
  read := fun r => (r.id, r.stored)
  encode_ne_nil := Record.encode_ne_nil
  decode_encode := fun r rest h => by rw [readRecord, Record.decodeDocument_encode h]
  decode_front := fun r front h hfront hne => by
    obtain ⟨what, hwhat⟩ := Record.decodeDocument_front (Record.fits_iff.1 h).2.2.2 hfront hne
    rw [readRecord, hwhat]

/-!
## The two document stores on disk

A directory is its files by name. Version 1 keeps the offset of each document; version 2 has the same files and
offsets, and secondary indexes from the values of a field to document ids. The maps of the source are sorted maps
here, since nothing depends on the order in which they are iterated; the order of a filter is explicit. An
`insert` is given the id that `new_doc_id` generates for it.
-/

abbrev DocId := String

/-- The files of the directory. A name with a slash leads to another directory; its file is kept here under the path
as it is written. -/
abbrev Dir := SortedMap String Bytes

/-- The offsets by collection and document id. -/
abbrev Offsets := SortedMap String (SortedMap DocId Nat)

/-- Why a read fails. -/
inductive IoError where
  | notFound
  | unexpectedEof
  | decode (err : DecodeError)
  deriving DecidableEq

/-! #### Names -/

/-- `collection_path`, within the directory. -/
def collectionPath (collection : String) : String :=
  collection ++ ".db"

/-- `file_stem` and `extension` of a name that has both: what stands before and after its last dot. -/
def splitAtDot (name : String) : Option (String × String) :=
  match name.toList.reverse.dropWhile (· ≠ '.') with
  | _ :: c :: stem =>
    some (.ofList (c :: stem).reverse, .ofList (name.toList.reverse.takeWhile (· ≠ '.')).reverse)
  | _ => none

/-- The collections that `open` finds with `read_dir`. -/
def collections (dir : Dir) : List String :=
  dir.entries.filterMap fun (name, _) =>
    if '/' ∈ name.toList then none
    else
      match splitAtDot name with
      | some (stem, ext) => if ext = "db" then some stem else none
      | none => none

/-! #### Files and offsets -/

/-- The records that the loop over a collection file reads, with their offsets. -/
def scan (bytes : Bytes) : List ((DocId × Value) × Nat) :=
  scanRecords readRecord bytes

/-- `rebuild_index` and `rebuild_offset_index`. -/
def rebuildIndex (dir : Dir) (offsets : Offsets) (collection : String) : Offsets :=
  match dir.get (collectionPath collection) with
  | none => offsets
  | some bytes =>
    offsets.insert collection
      (((offsets.get collection).getD .empty).insertAll ((scan bytes).map fun p => (p.1.1, p.2)))

/-- The offsets after `open`. -/
def openOffsets (dir : Dir) : Offsets :=
  (collections dir).foldl (rebuildIndex dir) .empty

/-- The files and the offsets after `insert`: the record is appended to the file. -/
def appendDocument (dir : Dir) (offsets : Offsets) (collection : String) (id : DocId) (doc : Value) : Dir × Offsets :=
  let bytes := (dir.get (collectionPath collection)).getD []
  (dir.insert (collectionPath collection) (bytes ++ encodeDocument id (withId id doc)),
    offsets.insert collection (((offsets.get collection).getD .empty).insert id bytes.length))

/-- The record at an offset, by its length prefix. -/
def readAt (bytes : Bytes) (offset : Nat) : Except IoError Value :=
  match readExact 4 (bytes.drop offset) with
  | none => .error .unexpectedEof
  | some (lenBuf, rest) =>
    match readExact (ofLeBytes lenBuf) rest with
    | none => .error .unexpectedEof
    | some (payload, _) =>
      match decodeDocument (lenBuf ++ payload) with
      | .ok (_, doc, _) => .ok doc
      | .error err => .error (.decode err)

/-- `get`. -/
def getDocument (dir : Dir) (offsets : Offsets) (collection : String) (id : DocId) : Except IoError (Option Value) :=
  match (offsets.get collection).bind (·.get id) with
  | none => .ok none
  | some offset =>
    match dir.get (collectionPath collection) with
    | none => .error .notFound
    | some bytes => (readAt bytes offset).map some

/-- `find` of version 1 and `full_scan`. -/
def scanDocuments (dir : Dir) (collection : String) (filter : Filter) : List Value :=
  match dir.get (collectionPath collection) with
  | none => []
  | some bytes => ((scan bytes).map fun p => p.1.2).filter fun doc => matchesFilter doc filter

/-! #### Version 1 -/

namespace V1

structure DocumentStore where
  offsets : Offsets

def openDir (dir : Dir) : DocumentStore :=
  ⟨openOffsets dir⟩

def insert (dir : Dir) (store : DocumentStore) (collection : String) (id : DocId) (doc : Value) : Dir × DocumentStore :=
  let r := appendDocument dir store.offsets collection id doc
  (r.1, ⟨r.2⟩)

def get (dir : Dir) (store : DocumentStore) (collection : String) (id : DocId) : Except IoError (Option Value) :=
  getDocument dir store.offsets collection id

def find (dir : Dir) (_store : DocumentStore) (collection : String) (filter : Filter) : Except IoError (List Value) :=
  .ok (scanDocuments dir collection filter)

end V1

/-! #### Version 2 -/

namespace V2

/-- The document ids by the key of a field's value. -/
abbrev FieldIndex := SortedMap String (List DocId)

structure DocumentStore where
  offsets : Offsets
  indexes : SortedMap String (SortedMap String FieldIndex)

def openDir (dir : Dir) : DocumentStore :=
  ⟨openOffsets dir, .empty⟩

variable (numberString : Number → String)

/-- The id of a document is added to the index of a field. -/
def addToIndex (field : String) (index : FieldIndex) (id : DocId) (doc : Value) : FieldIndex :=
  match doc.asObject.bind (SortedList.find · field) with
  | some val =>
    let key := indexKey numberString val
    index.insert key (((index.get key).getD []) ++ [id])
  | none => index

def insert (dir : Dir) (store : DocumentStore) (collection : String) (id : DocId) (doc : Value) : Dir × DocumentStore :=
  let r := appendDocument dir store.offsets collection id doc
  let indexes :=
    match store.indexes.get collection with
    | some colIndexes =>
      store.indexes.insert collection
        (colIndexes.mapEntries fun field index => addToIndex numberString field index id (withId id doc))
    | none => store.indexes
  (r.1, ⟨r.2, indexes⟩)

def get (dir : Dir) (store : DocumentStore) (collection : String) (id : DocId) : Except IoError (Option Value) :=
  getDocument dir store.offsets collection id

def createIndex (dir : Dir) (store : DocumentStore) (collection field : String) : DocumentStore :=
  let fieldIndex : FieldIndex :=
    match dir.get (collectionPath collection) with
    | none => .empty
    | some bytes => (scan bytes).foldl (fun index p => addToIndex numberString field index p.1.1 p.1.2) .empty
  { store with
    indexes := store.indexes.insert collection
      (((store.indexes.get collection).getD .empty).insert field fieldIndex) }

def hasIndex (store : DocumentStore) (collection field : String) : Bool :=
  ((store.indexes.get collection).bind (·.get field)).isSome

/-- The documents with the given ids that match a filter. -/
def fetch (dir : Dir) (store : DocumentStore) (collection : String) (filter : Filter) :
    List DocId → Except IoError (List Value)
  | [] => .ok []
  | id :: ids => do
    let doc ← get dir store collection id
    let docs ← fetch dir store collection filter ids
    .ok ((doc.filter fun doc => matchesFilter doc filter).toList ++ docs)

/-- `find`. The first field of the filter that has an index decides where to look. -/
def find (dir : Dir) (store : DocumentStore) (collection : String) (filter : Filter) : Except IoError (List Value) :=
  let indexed := (store.indexes.get collection).bind fun colIndexes =>
    filter.findSome? fun (field, expected) => (colIndexes.get field).map fun index => (index, expected)
  match indexed with
  | some (index, expected) =>
    match index.get (indexKey numberString expected) with
    | some ids => fetch dir store collection filter ids
    | none => .ok []
  | none => .ok (scanDocuments dir collection filter)

end V2

end SystemDesignLabs.DocumentDb

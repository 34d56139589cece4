import SystemDesignLabs.Core.Bytes
import SystemDesignLabs.Core.Framing

/-!
# The record format of the disk log

A record is the absolute offset in eight bytes, the length of the payload in four, and the payload, most
significant bytes first. `scan` is the loop that reads records from a position on and skips those below an
offset; `countMessagesInLog` counts records without reading their payloads, so that a record whose payload
is cut off is counted too.

The format is a framing. What a scan returns is determined by how the file splits into records
(`scan_splits`), also for a file that no log has written.
-/

namespace SystemDesignLabs.Kafka

open List Option Core

/-- The value of a 64-bit register that is read with sign. -/
def toInt64 (x : Int) : Int := x.bmod (2 ^ 64)

theorem toInt64_of_mem {x : Int} (hlow : -2 ^ 63 ≤ x) (hhigh : x < 2 ^ 63) : toInt64 x = x := by
  apply Int.bmod_eq_of_le <;> omega

theorem toInt64_of_le {x : Int} (hlow : 2 ^ 63 ≤ x) (hhigh : x < 2 ^ 64) : toInt64 x = x - 2 ^ 64 := by
  rw [toInt64, Int.bmod_def, if_neg] <;> omega

theorem toInt64_of_lt {n : Nat} (h : n < 2 ^ 63) : toInt64 n = n :=
  toInt64_of_mem (by omega) (by omega)

/-- A consumed record: its absolute offset, a number of 64 bits with sign, and the payload. -/
structure Message where
  offset : Int
  payload : Bytes
  deriving DecidableEq, Repr

/-- A record in a file: the offset as it is written, without sign. -/
structure Record where
  offset : Nat
  payload : Bytes
  deriving DecidableEq, Repr

namespace Record

/-- The bytes of a record. -/
def encode (r : Record) : Bytes :=
  beBytes 8 r.offset ++ (beBytes 4 r.payload.length ++ r.payload)

/-- Read one record from the front. -/
def decode (s : Bytes) : Option (Record × Bytes) := do
  let (offBuf, s) ← readExact 8 s
  let (lenBuf, s) ← readExact 4 s
  let (payload, s) ← readExact (ofBeBytes lenBuf) s
  some (⟨ofBeBytes offBuf, payload⟩, s)

/-- The numbers fit their fields. -/
def Valid (r : Record) : Prop := r.offset < 2 ^ 64 ∧ r.payload.length < 2 ^ 32

/-- The record as it is returned. -/
def message (r : Record) : Message := ⟨toInt64 r.offset, r.payload⟩

theorem message_of_lt {r : Record} (h : r.offset < 2 ^ 63) : r.message = ⟨r.offset, r.payload⟩ := by
  rw [message]
  rw [toInt64_of_lt h]

@[simp] theorem length_encode (r : Record) : r.encode.length = 12 + r.payload.length := by
  rw [encode, length_append, length_append, length_beBytes, length_beBytes]
  omega

theorem encode_ne_nil (r : Record) : r.encode ≠ [] := by
  intro h
  have hlen := length_encode r
  rw [h, length_nil] at hlen
  omega

theorem decode_encode (r : Record) (rest : Bytes) (h : r.Valid) : decode (r.encode ++ rest) = some (r, rest) := by
  have hoff : readExact 8 (r.encode ++ rest) =
      some (beBytes 8 r.offset, beBytes 4 r.payload.length ++ r.payload ++ rest) := by
    have happend := readExact_append (beBytes 8 r.offset)
      (beBytes 4 r.payload.length ++ r.payload ++ rest)
    rwa [length_beBytes, ← append_assoc] at happend
  have hlen : readExact 4 (beBytes 4 r.payload.length ++ r.payload ++ rest) =
      some (beBytes 4 r.payload.length, r.payload ++ rest) := by
    have happend := readExact_append (beBytes 4 r.payload.length) (r.payload ++ rest)
    rwa [length_beBytes, ← append_assoc] at happend
  have hlen' : ofBeBytes (beBytes 4 r.payload.length) = r.payload.length := by
    rw [ofBeBytes_beBytes]
    exact Nat.mod_eq_of_lt h.2
  have hoff' : ofBeBytes (beBytes 8 r.offset) = r.offset := by
    rw [ofBeBytes_beBytes]
    exact Nat.mod_eq_of_lt h.1
  simp only [decode, hoff, hlen, hlen', hoff', readExact_append, bind_eq_bind, bind_some]

theorem decode_sound (s : Bytes) (r : Record) (rest : Bytes) (h : decode s = some (r, rest)) :
    r.Valid ∧ s = r.encode ++ rest := by
  obtain ⟨⟨offBuf, s₁⟩, hoff, h⟩ := bind_eq_some_iff.1 h
  obtain ⟨⟨lenBuf, s₂⟩, hlen, h⟩ := bind_eq_some_iff.1 h
  obtain ⟨⟨payload, s₃⟩, hpayload, h⟩ := bind_eq_some_iff.1 h
  obtain ⟨rfl, rfl⟩ := Prod.mk.inj (some.inj h)
  obtain ⟨hs, hoffLen⟩ := readExact_sound hoff
  obtain ⟨hs₁, hlenLen⟩ := readExact_sound hlen
  obtain ⟨hs₂, hpayloadLen⟩ := readExact_sound hpayload
  refine ⟨⟨?_, ?_⟩, ?_⟩
  · have hlt := ofBeBytes_lt offBuf
    rwa [hoffLen] at hlt
  · have hlt := ofBeBytes_lt lenBuf
    rw [hlenLen] at hlt
    exact hpayloadLen ▸ hlt
  · simp only [encode]
    rw [beBytes_ofBeBytes hoffLen, hpayloadLen, beBytes_ofBeBytes hlenLen, hs, hs₁, hs₂]
    simp only [append_assoc]

theorem decode_eq_none_of_lt {s : Bytes} (h : s.length < 12) : decode s = none := by
  cases hd : decode s with
  | none => rfl
  | some p =>
    have hs := congrArg length (decode_sound s p.1 p.2 hd).2
    rw [length_append, length_encode] at hs
    omega

end Record

/-- The record format as a framing. -/
def recordFraming : Framing Record Byte where
  Valid := Record.Valid
  encode := Record.encode
  decode := Record.decode
  encode_ne_nil := Record.encode_ne_nil
  decode_encode := Record.decode_encode
  decode_sound := Record.decode_sound

/-! ### Scanning -/

/-- The scan of `readFromSegment`: at most `maxMessages` records with an offset of at least
`globalOffset`, until the file or a complete record ends. Every record takes at least twelve bytes, so
the loop ends within the first argument. -/
def scanLoop (globalOffset : Int) : Nat → Nat → Bytes → List Message
  | 0, _, _ => []
  | fuel + 1, maxMessages, s =>
    if maxMessages = 0 then []
    else match Record.decode s with
      | none => []
      | some (r, rest) =>
        if r.message.offset < globalOffset then scanLoop globalOffset fuel maxMessages rest
        else r.message :: scanLoop globalOffset fuel (maxMessages - 1) rest

def scan (globalOffset : Int) (maxMessages : Nat) (s : Bytes) : List Message :=
  scanLoop globalOffset (s.length + 1) maxMessages s

theorem scanLoop_splits {s rest : Bytes} {rs : List Record} (h : recordFraming.Splits s rs rest)
    (globalOffset : Int) (fuel maxMessages : Nat) (hfuel : s.length < fuel) : scanLoop globalOffset fuel maxMessages s =
      ((rs.map Record.message).filter fun m => globalOffset ≤ m.offset).take maxMessages := by
  induction fuel generalizing s rs maxMessages with
  | zero => exact absurd hfuel (Nat.not_lt_zero _)
  | succ fuel ih =>
    rw [scanLoop]
    by_cases hmax : maxMessages = 0
    · rw [if_pos hmax, hmax, take_zero]
    · rw [if_neg hmax]
      cases rs with
      | nil =>
        have hs : s = rest := h.eq
        have hstuck : Record.decode s = none := hs ▸ h.stuck
        rw [hstuck]
        simp
      | cons r rs =>
        have hvalid := forall_mem_cons.1 h.valid
        have hs : s = r.encode ++ (recordFraming.encodeAll rs ++ rest) := by
          rw [h.eq, Framing.encodeAll_cons, append_assoc]
          rfl
        have hdecode : Record.decode s = some (r, recordFraming.encodeAll rs ++ rest) := by
          rw [hs]
          exact Record.decode_encode r _ hvalid.1
        have hrest : recordFraming.Splits (recordFraming.encodeAll rs ++ rest) rs rest :=
          ⟨rfl, hvalid.2, h.stuck⟩
        have hshort : (recordFraming.encodeAll rs ++ rest).length < fuel := by
          rw [hs, length_append, Record.length_encode] at hfuel
          omega
        rw [hdecode, map_cons, filter_cons]
        by_cases hskip : r.message.offset < globalOffset
        · simp only [if_pos hskip, decide_eq_false (not_le.2 hskip), Bool.false_eq_true, if_false]
          exact ih hrest maxMessages hshort
        · obtain ⟨n, rfl⟩ := Nat.exists_eq_add_one_of_ne_zero hmax
          simp only [if_neg hskip, decide_eq_true (not_lt.1 hskip), if_true, take_succ_cons, Nat.add_sub_cancel]
          rw [ih hrest n hshort]

/-- What a scan returns. -/
theorem scan_splits {s rest : Bytes} {rs : List Record} (h : recordFraming.Splits s rs rest)
    (globalOffset : Int) (maxMessages : Nat) : scan globalOffset maxMessages s =
      ((rs.map Record.message).filter fun m => globalOffset ≤ m.offset).take maxMessages :=
  scanLoop_splits h globalOffset _ maxMessages (Nat.lt_succ_self _)

/-! ### Counting -/

/-- The loop of `countMessagesInLog`. The payload is passed over by moving the file position, which
succeeds beyond the end of the file as well. -/
def countLoop : Nat → Bytes → Nat → Nat
  | 0, _, count => count
  | fuel + 1, s, count => match readExact 8 s with
    | none => count
    | some (_, s) => match readExact 4 s with
      | none => count
      | some (lenBuf, s) => countLoop fuel (s.drop (ofBeBytes lenBuf)) (count + 1)

def countMessagesInLog (s : Bytes) : Nat := countLoop (s.length + 1) s 0

/-!
## The sparse index of a segment

An entry is the offset relative to the base of the segment and a byte position in the log, four bytes each.
The relative offset is read back with sign, the position without. `indexLookup` is the binary search over
the entries of the file: the position of an entry whose relative offset is not above the target, or 0. The
readers rely on nothing else about it (`indexLookup_spec`), so that duplicate entries and entries for
records that are not there do no harm.
-/

/-- An entry as it is read: `relOffset` is an `int32`, `position` the unsigned value. -/
structure IndexEntry where
  relOffset : Int
  position : Nat
  deriving DecidableEq, Repr

/-- The conversion of a 64-bit number to `int32`. -/
def toInt32 (x : Int) : Int := x.bmod (2 ^ 32)

/-- The bytes of the entry for the record number `rel` of a segment, at the byte `pos`. -/
def encodeIndexEntry (rel pos : Nat) : Bytes := beBytes 4 rel ++ beBytes 4 pos

/-- Read the eight bytes of an entry. -/
def decodeIndexEntry (s : Bytes) : Option IndexEntry := do
  let (relBuf, s) ← readExact 4 s
  let (posBuf, _) ← readExact 4 s
  some ⟨toInt32 (ofBeBytes relBuf), ofBeBytes posBuf⟩

/-- The loop of `indexLookup` on the entries from `lo` to `hi`, with the position found so far. -/
def lookupLoop (index : Bytes) (relTarget : Int) : Nat → Nat → Nat → Nat → Nat
  | 0, _, _, result => result
  | fuel + 1, lo, hi, result =>
    if lo ≤ hi then
      let mid := (lo + hi) / 2
      match decodeIndexEntry (index.drop (mid * 8)) with
      | none => result
      | some e =>
        if e.relOffset ≤ relTarget then lookupLoop index relTarget fuel (mid + 1) hi e.position
        else if mid = 0 then result
        else lookupLoop index relTarget fuel lo (mid - 1) result
    else result

/-- The byte position from which the segment with base `baseOffset` is scanned for `globalOffset`. Every
round shortens the interval, so the loop ends within the number of entries. -/
def indexLookup (index : Bytes) (baseOffset globalOffset : Int) : Nat :=
  let nEntries := index.length / 8
  if nEntries = 0 then 0
  else lookupLoop index (toInt32 (globalOffset - baseOffset)) nEntries 0 (nEntries - 1) 0

/-! #### What the search relies on -/

@[simp] theorem length_encodeIndexEntry (rel pos : Nat) : (encodeIndexEntry rel pos).length = 8 := by
  rw [encodeIndexEntry, length_append, length_beBytes, length_beBytes]

theorem toInt32_of_lt {n : Nat} (h : n < 2 ^ 31) : toInt32 n = n := by
  rw [toInt32, Int.bmod_eq_of_le] <;> omega

theorem decode_encodeIndexEntry {rel pos : Nat} (hrel : rel < 2 ^ 31) (hpos : pos < 2 ^ 32)
    (rest : Bytes) : decodeIndexEntry (encodeIndexEntry rel pos ++ rest) = some ⟨rel, pos⟩ := by
  have hread : ∀ (n : Nat) (t : Bytes), readExact 4 (beBytes 4 n ++ t) = some (beBytes 4 n, t) := by
    intro n t
    have happend := readExact_append (beBytes 4 n) t
    rwa [length_beBytes] at happend
  have hrel' : ofBeBytes (beBytes 4 rel) = rel := by
    rw [ofBeBytes_beBytes]
    exact Nat.mod_eq_of_lt (by omega)
  have hpos' : ofBeBytes (beBytes 4 pos) = pos := by
    rw [ofBeBytes_beBytes]
    exact Nat.mod_eq_of_lt hpos
  simp only [decodeIndexEntry, encodeIndexEntry, append_assoc, hread, hrel', hpos',
    toInt32_of_lt hrel, bind_eq_bind, bind_some]

/-- The file holds entries for record numbers and positions that satisfy `P`. -/
structure IndexOf (P : Nat → Nat → Prop) (index : Bytes) : Prop where
  /-- The entries, in the order in which they were written. -/
  entries : ∃ es : List (Nat × Nat), index = es.flatMap (fun e => encodeIndexEntry e.1 e.2) ∧
    ∀ e ∈ es, e.1 < 2 ^ 31 ∧ e.2 < 2 ^ 32 ∧ P e.1 e.2

theorem IndexOf.nil (P : Nat → Nat → Prop) : IndexOf P [] :=
  ⟨[], rfl, fun _ h => absurd h not_mem_nil⟩

variable {index : Bytes}

theorem IndexOf.mono {P Q : Nat → Nat → Prop} (h : IndexOf P index) (hpq : ∀ rel pos, P rel pos → Q rel pos) :
    IndexOf Q index := by
  obtain ⟨es, hindex, hes⟩ := h
  exact ⟨es, hindex, fun e he => ⟨(hes e he).1, (hes e he).2.1, hpq _ _ (hes e he).2.2⟩⟩

variable {P : Nat → Nat → Prop}

theorem IndexOf.append (h : IndexOf P index) {rel pos : Nat} (hrel : rel < 2 ^ 31) (hpos : pos < 2 ^ 32)
    (hp : P rel pos) : IndexOf P (index ++ encodeIndexEntry rel pos) := by
  obtain ⟨es, hindex, hes⟩ := h
  refine ⟨es ++ [(rel, pos)], ?_, ?_⟩
  · rw [hindex, flatMap_append, flatMap_singleton]
  · intro e he
    rcases mem_append.1 he with he | he
    · exact hes e he
    · obtain rfl := mem_singleton.1 he
      exact ⟨hrel, hpos, hp⟩

theorem drop_flatMap_encode (es : List (Nat × Nat)) (n : Nat) :
    (es.flatMap fun e => encodeIndexEntry e.1 e.2).drop (n * 8) =
      (es.drop n).flatMap fun e => encodeIndexEntry e.1 e.2 := by
  induction es generalizing n with
  | nil => simp
  | cons e es ih =>
    cases n with
    | zero => simp
    | succ n =>
      have hdrop : ((n + 1) * 8) = (encodeIndexEntry e.1 e.2).length + n * 8 := by
        rw [length_encodeIndexEntry]
        omega
      rw [flatMap_cons, hdrop, drop_length_add_append, ih, drop_succ_cons]

theorem IndexOf.decode (h : IndexOf P index) {n : Nat} {e : IndexEntry}
    (he : decodeIndexEntry (index.drop (n * 8)) = some e) : ∃ rel, e.relOffset = (rel : Nat) ∧ P rel e.position := by
  obtain ⟨es, rfl, hes⟩ := h
  rw [drop_flatMap_encode] at he
  cases hd : es.drop n with
  | nil =>
    rw [hd] at he
    exact absurd he (by simp [decodeIndexEntry, readExact])
  | cons p ps =>
    have hp := hes p (mem_of_mem_drop (hd ▸ mem_cons_self))
    rw [hd, flatMap_cons, decode_encodeIndexEntry hp.1 hp.2.1, some.injEq] at he
    subst he
    exact ⟨p.1, rfl, hp.2.2⟩

theorem lookupLoop_spec (h : IndexOf P index) (relTarget : Int) (fuel lo hi result : Nat)
    (hresult : result = 0 ∨ ∃ rel : Nat, (rel : Int) ≤ relTarget ∧ P rel result) :
    lookupLoop index relTarget fuel lo hi result = 0 ∨ ∃ rel : Nat, (rel : Int) ≤ relTarget ∧
        P rel (lookupLoop index relTarget fuel lo hi result) := by
  induction fuel generalizing lo hi result with
  | zero => exact hresult
  | succ fuel ih =>
    rw [lookupLoop]
    dsimp only
    split
    · split
      · exact hresult
      · rename_i e he
        split
        · rename_i hle
          obtain ⟨rel, hrel, hp⟩ := h.decode he
          exact ih _ _ _ (Or.inr ⟨rel, hrel ▸ hle, hp⟩)
        · split
          · exact hresult
          · exact ih _ _ _ hresult
    · exact hresult

/-- The position found is 0 or that of an entry not above the target. -/
theorem indexLookup_spec (h : IndexOf P index) (base : Nat) {rel : Nat} (hrel : rel < 2 ^ 31) :
    indexLookup index base (base + rel : Nat) = 0 ∨ ∃ k ≤ rel, P k (indexLookup index base (base + rel : Nat)) := by
  have htarget : toInt32 (((base + rel : Nat) : Int) - base) = rel := by
    rw [Nat.cast_add, add_sub_cancel_left, toInt32_of_lt hrel]
  rw [indexLookup, htarget]
  split
  · exact Or.inl rfl
  · rcases lookupLoop_spec h rel _ 0 _ 0 (Or.inl rfl) with hzero | ⟨k, hk, hp⟩
    · exact Or.inl hzero
    · exact Or.inr ⟨k, Int.ofNat_le.1 hk, hp⟩

end SystemDesignLabs.Kafka

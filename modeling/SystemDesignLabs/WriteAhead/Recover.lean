import SystemDesignLabs.Core.Bytes
import SystemDesignLabs.Core.Framing

/-!
# The log file and its recovery

The record format of `labs/wal/src/v1.rs` (a magic byte, the checksum, the length and the payload),
`recover` and `recover_and_truncate`, which both versions of the log use. The checksum is an arbitrary
function of the payload. Recovery reads any file as a log followed by bytes that begin with no record
(`recover_splits`), and truncation leaves exactly that log (`recoverAndTruncate_spec`).
-/

namespace SystemDesignLabs.WriteAhead

open List Option Core

def magic : Byte := 0xAB

/-- The magic byte, the checksum and the length. -/
def headerLen : Nat := 9

/-- `LogRecord`; the payload is kept raw, where the source keeps its base64 text. -/
structure LogRecord where
  offset : Nat
  data : Bytes
  deriving DecidableEq, Repr

/-- A file of the log: its content, and how much of it has certainly reached the storage device. -/
structure LogFile where
  bytes : Bytes
  synced : Nat
  deriving DecidableEq, Repr

variable (crc : Bytes → BitVec 32)

/-- The header of a record. The length is stored modulo `2 ^ 32`. -/
def header (data : Bytes) : Bytes :=
  magic :: (leBytes 4 (crc data).toNat ++ leBytes 4 data.length)

/-- A record on disk. -/
def record (data : Bytes) : Bytes := header crc data ++ data

/-! ## `recover` -/

/-- The loop of `recover`: the reader, the records so far and the length of the valid prefix. -/
def recoverLoop (fileLen : Nat) : Nat → Bytes → List LogRecord → Nat → List LogRecord × Nat
  | 0, _, records, validLen => (records, validLen)
  | fuel + 1, reader, records, validLen =>
    match readExact headerLen reader with
    | none => (records, validLen)
    | some (header, reader) =>
      if header.take 1 ≠ [magic] then (records, validLen)
      else
        let storedCrc := ofLeBytes ((header.drop 1).take 4)
        let length := ofLeBytes ((header.drop 5).take 4)
        -- a torn header can carry a garbage length
        if fileLen < validLen + headerLen + length then (records, validLen)
        else
          match readExact length reader with
          | none => (records, validLen)
          | some (data, reader) =>
            if (crc data).toNat ≠ storedCrc then (records, validLen)
            else
              recoverLoop fileLen fuel reader (records ++ [⟨records.length, data⟩])
                (validLen + (headerLen + length))

/-- `recover`: the valid records and the length of the valid prefix. Every record takes at least nine
bytes, so the loop ends within the fuel. -/
def recover (file : LogFile) : List LogRecord × Nat :=
  recoverLoop crc file.bytes.length (file.bytes.length + 1) file.bytes [] 0

/-- `set_len` to at most the length of the file, and `sync_all`. The cut is stored; of the bytes in
front of it only those that were stored before are counted as stored. -/
def LogFile.setLen (file : LogFile) (n : Nat) : LogFile := ⟨file.bytes.take n, min file.synced n⟩

def recoverAndTruncate (file : LogFile) : List LogRecord × LogFile :=
  let (records, validLen) := recover crc file
  (records, if validLen < file.bytes.length then file.setLen validLen else file)

/-! ## The format -/

/-- Read one record: what one round of the loop does when it goes on. -/
def readRecord (reader : Bytes) : Option (Bytes × Bytes) := do
  let (header, reader) ← readExact headerLen reader
  if header.take 1 = [magic] then
    let (data, reader) ← readExact (ofLeBytes ((header.drop 5).take 4)) reader
    if (crc data).toNat = ofLeBytes ((header.drop 1).take 4) then some (data, reader) else none
  else none

section

variable (data : Bytes)
include data

@[simp] theorem length_header : (header crc data).length = headerLen := by
  simp [header, headerLen]

@[simp] theorem length_record : (record crc data).length = headerLen + data.length := by
  rw [record, length_append, length_header]

theorem header_magic : (header crc data).take 1 = [magic] := rfl

theorem header_crc : ((header crc data).drop 1).take 4 = leBytes 4 (crc data).toNat := by
  show (leBytes 4 (crc data).toNat ++ leBytes 4 data.length).take 4 = _
  exact take_left' (length_leBytes 4 _)

theorem header_length : ((header crc data).drop 5).take 4 = leBytes 4 data.length := by
  show ((leBytes 4 (crc data).toNat ++ leBytes 4 data.length).drop 4).take 4 = _
  rw [drop_left' (length_leBytes 4 _)]
  exact take_of_length_le (length_leBytes 4 _).le

end

theorem readRecord_record (data rest : Bytes) (hlen : data.length < 2 ^ 32) :
    readRecord crc (record crc data ++ rest) = some (data, rest) := by
  have hh : readExact headerLen (record crc data ++ rest) = some (header crc data, data ++ rest) := by
    rw [record, append_assoc]
    exact length_header crc data ▸ readExact_append (header crc data) (data ++ rest)
  have hl : ofLeBytes (leBytes 4 data.length) = data.length := by
    rw [ofLeBytes_leBytes]
    exact Nat.mod_eq_of_lt hlen
  have hc : ofLeBytes (leBytes 4 (crc data).toNat) = (crc data).toNat := by
    rw [ofLeBytes_leBytes]
    exact Nat.mod_eq_of_lt (crc data).isLt
  simp only [readRecord, hh, bind_eq_bind, bind_some, header_magic, header_length,
    header_crc, hl, hc, readExact_append, if_true]

theorem header_of_fields {h data : Bytes} (hlen : h.length = headerLen) (hmagic : h.take 1 = [magic])
    (hlength : ofLeBytes ((h.drop 5).take 4) = data.length)
    (hcrc : (crc data).toNat = ofLeBytes ((h.drop 1).take 4)) : h = header crc data := by
  have h4 : ((h.drop 1).take 4).length = 4 := by
    rw [length_take, length_drop, hlen]
    rfl
  have h4' : ((h.drop 5).take 4).length = 4 := by
    rw [length_take, length_drop, hlen]
    rfl
  have hend : (h.drop 5).take 4 = h.drop 5 := by
    apply take_of_length_le
    rw [length_drop, hlen]
    decide
  have hc : leBytes 4 (crc data).toNat = (h.drop 1).take 4 := by
    rw [hcrc]
    exact leBytes_ofLeBytes h4
  have hl : leBytes 4 data.length = h.drop 5 := by
    rw [← hlength, hend]
    rw [hend] at h4'
    exact leBytes_ofLeBytes h4'
  have hdrop : h.drop 5 = (h.drop 1).drop 4 := by rw [drop_drop]
  calc h = h.take 1 ++ h.drop 1 := (take_append_drop 1 h).symm
    _ = [magic] ++ ((h.drop 1).take 4 ++ (h.drop 1).drop 4) := by
        rw [hmagic, take_append_drop]
    _ = header crc data := by
        rw [header, hc, hl, hdrop]
        rfl

/-- What is read as a record is a record, whatever the bytes are. -/
theorem readRecord_sound {s data rest : Bytes} (h : readRecord crc s = some (data, rest)) :
    data.length < 2 ^ 32 ∧ s = record crc data ++ rest := by
  simp only [readRecord, bind_eq_bind, bind_eq_some_iff, Prod.exists] at h
  obtain ⟨hd, tail, hread, h⟩ := h
  split at h
  · rename_i hmagic
    simp only [bind_eq_some_iff, Prod.exists] at h
    obtain ⟨data', rest', hread', h⟩ := h
    split at h
    · rename_i hcrc
      rw [some.injEq, Prod.mk.injEq] at h
      obtain ⟨rfl, rfl⟩ := h
      obtain ⟨hs, hlen⟩ := readExact_sound hread
      obtain ⟨htail, hlength⟩ := readExact_sound hread'
      have hheader := header_of_fields crc hlen hmagic hlength.symm hcrc
      constructor
      · rw [hlength]
        have hle : ((hd.drop 5).take 4).length ≤ 4 := length_take_le 4 _
        exact (ofLeBytes_lt _).trans_le (Nat.pow_le_pow_right (by decide) hle)
      · rw [hs, htail, hheader, record, append_assoc]
    · exact absurd h (by simp)
  · exact absurd h (by simp)

/-- The record format. -/
def framing : Framing Bytes Byte where
  Valid data := data.length < 2 ^ 32
  encode := record crc
  decode := readRecord crc
  encode_ne_nil data h := by
    have hlen := congrArg List.length h
    rw [length_record, headerLen] at hlen
    simp at hlen
  decode_encode data rest h := readRecord_record crc data rest h
  decode_sound _ _ _ h := readRecord_sound crc h

/-! ## The loop reads the file as a log -/

/-- The records with offsets from `base` on. -/
def numbered (base : Nat) (payloads : List Bytes) : List LogRecord :=
  payloads.mapIdx fun i data => ⟨base + i, data⟩

@[simp] theorem numbered_nil (base : Nat) : numbered base [] = [] := rfl

@[simp] theorem numbered_cons (base : Nat) (data : Bytes) (payloads : List Bytes) :
    numbered base (data :: payloads) = ⟨base, data⟩ :: numbered (base + 1) payloads := by
  rw [numbered, mapIdx_cons, numbered]
  congr 1
  apply mapIdx_eq_mapIdx_iff.2
  intro i _
  rw [Nat.add_right_comm, Nat.add_assoc]

@[simp] theorem length_numbered (base : Nat) (payloads : List Bytes) :
    (numbered base payloads).length = payloads.length := length_mapIdx

/-- One round of the loop goes on exactly when the reader begins with a record. The comparison with
the length of the file stops it only where the payload would not be there either. -/
theorem recoverLoop_succ (fileLen fuel : Nat) (reader : Bytes) (records : List LogRecord)
    (validLen : Nat) (hlen : fileLen = validLen + reader.length) :
    recoverLoop crc fileLen (fuel + 1) reader records validLen = match readRecord crc reader with
      | none => (records, validLen) | some (data, reader) =>
        recoverLoop crc fileLen fuel reader (records ++ [⟨records.length, data⟩])
          (validLen + (headerLen + data.length)) := by
  rw [recoverLoop, readRecord]
  cases hh : readExact headerLen reader with
  | none => rfl
  | some p =>
    obtain ⟨hd, tail⟩ := p
    obtain ⟨hreader, hhd⟩ := readExact_sound hh
    simp only [bind_eq_bind, bind_some]
    by_cases hmagic : hd.take 1 = [magic]
    · rw [if_neg (not_not.2 hmagic), if_pos hmagic]
      by_cases hshort : fileLen < validLen + headerLen + ofLeBytes ((hd.drop 5).take 4)
      · have htail : ¬ ofLeBytes ((hd.drop 5).take 4) ≤ tail.length := by
          rw [hlen, hreader, length_append, hhd] at hshort
          omega
        rw [if_pos hshort, readExact, if_neg htail]
        rfl
      · rw [if_neg hshort]
        cases hd' : readExact (ofLeBytes ((hd.drop 5).take 4)) tail with
        | none => rfl
        | some q =>
          obtain ⟨data, rest⟩ := q
          have hdata := (readExact_sound hd').2
          simp only [bind_some]
          by_cases hcrc : (crc data).toNat = ofLeBytes ((hd.drop 1).take 4)
          · rw [if_neg (not_not.2 hcrc), if_pos hcrc, ← hdata]
          · rw [if_pos hcrc, if_neg hcrc]
    · rw [if_pos hmagic, if_neg hmagic]

theorem recoverLoop_spec (fileLen fuel : Nat) (reader : Bytes) (records : List LogRecord)
    (validLen : Nat) (hfuel : reader.length < fuel) (hlen : fileLen = validLen + reader.length) :
    ∃ payloads rest, (framing crc).Splits reader payloads rest ∧ recoverLoop crc fileLen fuel reader records validLen =
        (records ++ numbered records.length payloads, validLen + ((framing crc).encodeAll payloads).length) := by
  induction fuel generalizing reader records validLen with
  | zero => exact absurd hfuel (Nat.not_lt_zero _)
  | succ fuel ih =>
    rw [recoverLoop_succ crc fileLen fuel reader records validLen hlen]
    cases hr : readRecord crc reader with
    | none =>
      refine ⟨[], reader, .nil hr, ?_⟩
      simp
    | some p =>
      obtain ⟨data, tail⟩ := p
      have hreader := (readRecord_sound crc hr).2
      have hlen' : reader.length = headerLen + data.length + tail.length := by
        rw [hreader, length_append, length_record]
      have hheader : headerLen = 9 := rfl
      obtain ⟨payloads, rest, hsplit, heq⟩ := ih tail (records ++ [⟨records.length, data⟩])
        (validLen + (headerLen + data.length)) (by omega) (by omega)
      refine ⟨data :: payloads, rest, .cons hr hsplit, ?_⟩
      have hrecord : ((framing crc).encode data).length = headerLen + data.length :=
        length_record crc data
      simp only [heq, numbered_cons, length_append, length_singleton,
        append_assoc, singleton_append, Framing.encodeAll_cons, hrecord, Nat.add_assoc]

/-- Recovery reads a file as a log and a rest that begins with no record. -/
theorem recover_splits (file : LogFile) : ∃ payloads rest, (framing crc).Splits file.bytes payloads rest ∧
      recover crc file = (numbered 0 payloads, ((framing crc).encodeAll payloads).length) := by
  obtain ⟨payloads, rest, hsplit, heq⟩ := recoverLoop_spec crc file.bytes.length
    (file.bytes.length + 1) file.bytes [] 0 (Nat.lt_succ_self _) (Nat.zero_add _).symm
  refine ⟨payloads, rest, hsplit, ?_⟩
  rw [recover, heq, nil_append, length_nil, Nat.zero_add]

/-- What recovery does to a file, given how the file splits: the records are numbered from zero
and the file is cut to their log. -/
theorem recoverAndTruncate_spec (file : LogFile) {payloads : List Bytes} {rest : Bytes}
    (h : (framing crc).Splits file.bytes payloads rest) :
    ∃ file', recoverAndTruncate crc file = (numbered 0 payloads, file') ∧
      file'.bytes = (framing crc).encodeAll payloads ∧
      min file.synced ((framing crc).encodeAll payloads).length ≤ file'.synced := by
  obtain ⟨payloads', rest', hsplit, heq⟩ := recover_splits crc file
  obtain ⟨rfl, rfl⟩ := hsplit.unique h
  refine ⟨_, by rw [recoverAndTruncate, heq], ?_, ?_⟩
  · split
    · show file.bytes.take _ = _
      rw [h.eq, take_left]
    · rename_i hcut
      have hlen := congrArg length h.eq
      rw [length_append] at hlen
      have hrest : rest' = [] := length_eq_zero_iff.1 (by omega)
      rw [h.eq, hrest, append_nil]
  · split
    · exact le_refl _
    · exact Nat.min_le_left _ _

/-- A file that is a log is read whole and not cut. -/
theorem recoverAndTruncate_log (file : LogFile) {payloads : List Bytes} (hv : ∀ data ∈ payloads, data.length < 2 ^ 32)
    (hlog : file.bytes = payloads.flatMap (record crc)) :
    recoverAndTruncate crc file = (numbered 0 payloads, file) := by
  obtain ⟨payloads', rest, hsplit, heq⟩ := recover_splits crc file
  have hwhole : (framing crc).Splits file.bytes payloads [] := hlog ▸ Framing.splits_encodeAll hv
  obtain ⟨rfl, rfl⟩ := hsplit.unique hwhole
  rw [recoverAndTruncate, heq]
  dsimp only
  rw [if_neg]
  rw [hlog]
  exact Nat.lt_irrefl _

/-- **Recovery repairs any file**: whatever its bytes are, they are a log followed by bytes that begin with
no record; recovery returns the records of that log, numbered from zero, and leaves the log alone in the
file; and records written behind it are recovered after them, without another cut. -/
theorem recovery_repairs (file : LogFile) : ∃ payloads rest,
    file.bytes = payloads.flatMap (record crc) ++ rest ∧ readRecord crc rest = none ∧
      (recoverAndTruncate crc file).1 = numbered 0 payloads ∧
      (recoverAndTruncate crc file).2.bytes = payloads.flatMap (record crc) ∧
      ∀ more, (∀ data ∈ more, data.length < 2 ^ 32) → ∀ file' : LogFile,
        file'.bytes = (recoverAndTruncate crc file).2.bytes ++ more.flatMap (record crc) →
        recoverAndTruncate crc file' = (numbered 0 (payloads ++ more), file') := by
  obtain ⟨payloads, rest, hsplit⟩ : ∃ payloads rest, (framing crc).Splits file.bytes payloads rest :=
    Framing.exists_splits file.bytes
  obtain ⟨file₁, heq, hbytes, -⟩ := recoverAndTruncate_spec crc file hsplit
  rw [heq]
  refine ⟨payloads, rest, hsplit.eq, hsplit.stuck, rfl, hbytes, fun more hmore file' hfile' => ?_⟩
  apply recoverAndTruncate_log crc file' (forall_mem_append.2 ⟨hsplit.valid, hmore⟩)
  rw [hfile', flatMap_append]
  exact congrArg (· ++ more.flatMap (record crc)) hbytes

end SystemDesignLabs.WriteAhead

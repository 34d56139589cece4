import SystemDesignLabs.Core.Bytes

/-!
# WebSocket frames

`ReadFrame` and `WriteFrame` of `frame.go`. What is written is read back, whatever follows and whether it is masked
or not (`readFrame_encode`). The reader casts the length of a header to a signed number before it compares it with
the greatest size, so a length from `2 ^ 63` on is not refused.
-/

namespace SystemDesignLabs.WebsocketGateway

open List Core

def maxFrameSize : Nat := 16 * 2 ^ 20

structure Frame where
  fin : Bool
  opcode : Byte
  masked : Bool
  payload : Bytes
  deriving DecidableEq

/-- How `ReadFrame` fails: with an error, or in `make`. -/
inductive ReadFailure where
  | eof
  | unexpectedEof
  | frameTooLarge
  | panic
  deriving DecidableEq

def readFull (n : Nat) (r : Bytes) : Except ReadFailure (Bytes × Bytes) :=
  match readExact n r with
  | some p => .ok p
  | none => .error (if r = [] then .eof else .unexpectedEof)

/-- The conversion of a `uint64` to an `int64`. -/
def int64 (n : Nat) : Int :=
  if n < 2 ^ 63 then n else n - 2 ^ 64

/-- The length that a header declares, from its second byte and those that follow. -/
def readLength (second : Byte) (r : Bytes) : Except ReadFailure (Nat × Bytes) :=
  let n := (second &&& 0x7F).val
  if n = 126 then (readFull 2 r).map fun p => (ofBeBytes p.1, p.2)
  else if n = 127 then (readFull 8 r).map fun p => (ofBeBytes p.1, p.2)
  else .ok (n, r)

def unmask (payload key : Bytes) : Bytes :=
  payload.mapIdx fun i b => b ^^^ key.getD (i % 4) 0

def readFrame : Bytes → Except ReadFailure (Frame × Bytes)
  | [] => .error .eof
  | [_] => .error .unexpectedEof
  | first :: second :: r =>
    let fin := first &&& 0x80 ≠ 0
    let opcode := first &&& 0x0F
    let masked := second &&& 0x80 ≠ 0
    match readLength second r with
    | .error err => .error err
    | .ok (n, r) =>
      let payloadLen := int64 n
      if maxFrameSize < payloadLen then .error .frameTooLarge
      else
        match if masked then readFull 4 r else .ok ([0, 0, 0, 0], r) with
        | .error err => .error err
        | .ok (maskKey, r) =>
          if payloadLen < 0 then .error .panic
          else
            match readFull payloadLen.toNat r with
            | .error err => .error err
            | .ok (payload, r) => .ok (⟨fin, opcode, masked, if masked then unmask payload maskKey else payload⟩, r)

/-- The header of a frame of `n` bytes; `WriteFrame` leaves the bit of the mask clear. -/
def frameHeader (maskBit opcode : Byte) (n : Nat) : Bytes :=
  (0x80 ||| opcode) ::
    if n ≤ 125 then [maskBit ||| .ofNat 256 n]
    else if n ≤ 65535 then (maskBit ||| 126) :: beBytes 2 n
    else (maskBit ||| 127) :: beBytes 8 n

def writeFrame (opcode : Byte) (payload : Bytes) : Bytes :=
  frameHeader 0 opcode payload.length ++ payload

/-- A frame as a client writes it. -/
def maskedFrame (opcode : Byte) (payload key : Bytes) : Bytes :=
  frameHeader 0x80 opcode payload.length ++ (key ++ unmask payload key)

/-! ### What is written -/

/-- A frame that is written, with the key of its mask if there is one. -/
structure Sent where
  opcode : Byte
  payload : Bytes
  key : Option Bytes

namespace Sent

structure Valid (s : Sent) : Prop where
  opcode : s.opcode.val < 16
  payload : s.payload.length ≤ maxFrameSize
  key : ∀ key, s.key = some key → key.length = 4

def encode (s : Sent) : Bytes :=
  match s.key with
  | none => writeFrame s.opcode s.payload
  | some key => maskedFrame s.opcode s.payload key

def frame (s : Sent) : Frame :=
  ⟨true, s.opcode, s.key.isSome, s.payload⟩

end Sent

/-- `ReadFrame` as often as asked. -/
def readFrames : Nat → Bytes → Except ReadFailure (List Frame × Bytes)
  | 0, r => .ok ([], r)
  | n + 1, r => do
    let (f, r) ← readFrame r
    let (fs, r) ← readFrames n r
    .ok (f :: fs, r)

/-- The length that the header in front of a stream declares, if the stream has all of it. -/
def declaredLength : Bytes → Option Nat
  | _ :: second :: r => (readLength second r).toOption.map Prod.fst
  | _ => none

/-- `ReadFrame` does not panic, and refuses what is too large. -/
structure Robust (r : Bytes) : Prop where
  safe : readFrame r ≠ .error .panic
  refuses : ∀ n, declaredLength r = some n → maxFrameSize < n → readFrame r = .error .frameTooLarge

/-! ### Facts -/

theorem readFull_append (a b : Bytes) : readFull a.length (a ++ b) = .ok (a, b) := by
  rw [readFull, readExact_append]

variable {n : Nat}

theorem readFull_error {r : Bytes} {err : ReadFailure} (h : readFull n r = .error err) :
    err = .eof ∨ err = .unexpectedEof := by
  rw [readFull] at h
  split at h
  · cases h
  · split at h <;> cases h
    · exact .inl rfl
    · exact .inr rfl

theorem readLength_error {second : Byte} {r : Bytes} {err : ReadFailure} (h : readLength second r = .error err) :
    err = .eof ∨ err = .unexpectedEof := by
  have hread : ∀ n, (readFull n r).map (fun p => (ofBeBytes p.1, p.2)) = .error err →
      err = .eof ∨ err = .unexpectedEof := by
    intro n hn
    cases hfull : readFull n r with
    | ok p =>
      rw [hfull] at hn
      cases hn
    | error err' =>
      rw [hfull] at hn
      cases hn
      exact readFull_error hfull
  rw [readLength] at h
  split at h
  · exact hread 2 h
  · split at h
    · exact hread 8 h
    · cases h

theorem readLength_lt {second : Byte} {r rest : Bytes} (h : readLength second r = .ok (n, rest)) : n < 256 ^ 8 := by
  have hread : ∀ w ≤ 8, (readFull w r).map (fun p => (ofBeBytes p.1, p.2)) = .ok (n, rest) → n < 256 ^ 8 := by
    intro w hw hn
    rw [readFull] at hn
    split at hn
    · next p hp =>
      obtain ⟨bytes, back⟩ := p
      cases hn
      have hlt := ofBeBytes_lt bytes
      rw [(readExact_sound hp).2] at hlt
      exact Nat.lt_of_lt_of_le hlt (Nat.pow_le_pow_right (by decide) hw)
    · cases hn
  rw [readLength] at h
  split at h
  · exact hread 2 (by decide) h
  · split at h
    · exact hread 8 (by decide) h
    · cases h
      exact Nat.lt_of_lt_of_le (second &&& 0x7F).2 (by decide)

theorem int64_of_lt (h : n < 2 ^ 63) : int64 n = n :=
  if_pos h

theorem xor_xor (a b : Byte) : (a ^^^ b) ^^^ b = a := by
  apply Fin.ext
  have hlt : a.val ^^^ b.val < 256 := Nat.xor_lt_two_pow (n := 8) a.2 b.2
  show ((a.val ^^^ b.val) % 256 ^^^ b.val) % 256 = a.val
  rw [Nat.mod_eq_of_lt hlt, Nat.xor_assoc, Nat.xor_self, Nat.xor_zero, Nat.mod_eq_of_lt a.2]

theorem unmask_unmask (payload key : Bytes) : unmask (unmask payload key) key = payload := by
  rw [unmask, unmask, mapIdx_mapIdx]
  refine ext_getElem? fun i => ?_
  rw [getElem?_mapIdx]
  cases payload[i]? with
  | none => rfl
  | some b => exact congrArg some (xor_xor b _)

theorem length_unmask (payload key : Bytes) : (unmask payload key).length = payload.length :=
  length_mapIdx

theorem first_bits : ∀ opcode : Fin 16, (0x80 ||| Fin.ofNat 256 opcode.val) &&& 0x80 ≠ 0 ∧
    (0x80 ||| Fin.ofNat 256 opcode.val) &&& 0x0F = Fin.ofNat 256 opcode.val := by
  decide

theorem second_bits : ∀ n < 128, ∀ masked : Bool,
    (((if masked then 0x80 else 0) ||| Fin.ofNat 256 n) &&& 0x7F).val = n ∧
      decide (((if masked then 0x80 else 0) ||| Fin.ofNat 256 n) &&& 0x80 ≠ 0) = masked := by
  decide

theorem readLength_frameHeader (h : n < 2 ^ 63) (masked : Bool) (opcode : Byte) : ∃ second ext,
    frameHeader (if masked then 0x80 else 0) opcode n = (0x80 ||| opcode) :: second :: ext ∧
      decide (second &&& 0x80 ≠ 0) = masked ∧ ∀ rest, readLength second (ext ++ rest) = .ok (n, rest) := by
  have hext : ∀ w rest, n < 256 ^ w → (readFull w (beBytes w n ++ rest)).map (fun p => (ofBeBytes p.1, p.2)) =
      .ok (n, rest) := by
    intro w rest hlt
    have hread := readFull_append (beBytes w n) rest
    rw [length_beBytes] at hread
    rw [hread]
    show Except.ok (ofBeBytes (beBytes w n), rest) = _
    rw [ofBeBytes_beBytes, Nat.mod_eq_of_lt hlt]
  rw [frameHeader]
  by_cases hsmall : n ≤ 125
  · obtain ⟨hbits, hmask⟩ := second_bits n (by omega) masked
    refine ⟨_, [], by rw [if_pos hsmall], hmask, fun rest => ?_⟩
    rw [readLength, hbits, if_neg (show ¬ n = 126 by omega), if_neg (show ¬ n = 127 by omega)]
    rfl
  · by_cases hmiddle : n ≤ 65535
    · obtain ⟨hbits, hmask⟩ := second_bits 126 (by decide) masked
      refine ⟨_, beBytes 2 n, by rw [if_neg hsmall, if_pos hmiddle]; rfl, hmask, fun rest => ?_⟩
      rw [readLength, if_pos hbits]
      exact hext 2 rest (by omega)
    · obtain ⟨hbits, hmask⟩ := second_bits 127 (by decide) masked
      refine ⟨_, beBytes 8 n, by rw [if_neg hsmall, if_neg hmiddle]; rfl, hmask, fun rest => ?_⟩
      rw [readLength, if_neg (fun h126 => absurd (hbits.symm.trans h126) (by decide)), if_pos hbits]
      exact hext 8 rest (by omega)

/-- A frame is read back, and no more than its bytes are taken. -/
theorem readFrame_encode {s : Sent} (h : s.Valid) (rest : Bytes) :
    readFrame (s.encode ++ rest) = .ok (s.frame, rest) := by
  have hmax : s.payload.length < 2 ^ 63 := Nat.lt_of_le_of_lt h.payload (by decide)
  have hint := int64_of_lt hmax
  have hsize : ¬ (maxFrameSize : Int) < s.payload.length := Int.not_lt.2 (Int.ofNat_le.2 h.payload)
  have hopcode := first_bits ⟨s.opcode.val, h.opcode⟩
  rw [Fin.ofNat_val_eq_self] at hopcode
  obtain ⟨hfin, hbits⟩ := hopcode
  obtain ⟨second, ext, hheader, hmask, hlength⟩ := readLength_frameHeader hmax s.key.isSome s.opcode
  obtain ⟨opcode, payload, key⟩ := s
  cases key with
  | none =>
    have hbytes : Sent.encode ⟨opcode, payload, none⟩ ++ rest =
        (0x80 ||| opcode) :: second :: (ext ++ (payload ++ rest)) := by
      show frameHeader 0 opcode payload.length ++ payload ++ rest = _
      rw [show frameHeader 0 opcode payload.length = _ from hheader, append_assoc]
      rfl
    rw [hbytes, readFrame, hlength]
    dsimp only
    rw [hint, if_neg hsize, if_neg (of_decide_eq_false hmask)]
    dsimp only
    rw [if_neg (by omega), Int.toNat_natCast, readFull_append, hbits, decide_eq_true hfin, hmask]
    dsimp only
    rw [if_neg (of_decide_eq_false hmask)]
    rfl
  | some key =>
    have hkey : key.length = 4 := h.key key rfl
    have hbytes : Sent.encode ⟨opcode, payload, some key⟩ ++ rest =
        (0x80 ||| opcode) :: second :: (ext ++ (key ++ (unmask payload key ++ rest))) := by
      show frameHeader 0x80 opcode payload.length ++ (key ++ unmask payload key) ++ rest = _
      rw [show frameHeader 0x80 opcode payload.length = _ from hheader, append_assoc, append_assoc]
      rfl
    have hmaskKey := readFull_append key (unmask payload key ++ rest)
    have hpayload := readFull_append (unmask payload key) rest
    rw [hkey] at hmaskKey
    rw [length_unmask] at hpayload
    rw [hbytes, readFrame, hlength]
    dsimp only
    rw [hint, if_neg hsize, if_pos (of_decide_eq_true hmask), hmaskKey]
    dsimp only
    rw [if_neg (by omega), Int.toNat_natCast, hpayload, hbits, decide_eq_true hfin, hmask]
    dsimp only
    rw [if_pos (of_decide_eq_true hmask), unmask_unmask]
    rfl

theorem readFrames_encode {sent : List Sent} (h : ∀ s ∈ sent, s.Valid) (rest : Bytes) :
    readFrames sent.length (sent.flatMap Sent.encode ++ rest) = .ok (sent.map Sent.frame, rest) := by
  induction sent with
  | nil => rfl
  | cons s sent ih =>
    obtain ⟨hs, hsent⟩ := forall_mem_cons.1 h
    rw [flatMap_cons, append_assoc, length_cons, readFrames, readFrame_encode hs]
    show (readFrames sent.length (sent.flatMap Sent.encode ++ rest) >>= _) = _
    rw [ih hsent]
    rfl

theorem readFrame_error {first second : Byte} {r rest : Bytes} (hlength : readLength second r = .ok (n, rest))
    (hsize : ¬ (maxFrameSize : Int) < int64 n) {failure : ReadFailure}
    (h : readFrame (first :: second :: r) = .error failure) :
    failure ≠ .frameTooLarge ∧ (failure = .panic → int64 n < 0) := by
  have hfull : ∀ {w : Nat} {r : Bytes}, readFull w r = .error failure →
      failure ≠ .frameTooLarge ∧ (failure = .panic → int64 n < 0) := by
    intro w r hr
    rcases readFull_error hr with rfl | rfl <;> exact ⟨nofun, nofun⟩
  rw [readFrame, hlength] at h
  dsimp only at h
  rw [if_neg hsize] at h
  split at h
  · next err hkey =>
    cases h
    split at hkey
    · exact hfull hkey
    · cases hkey
  · split at h
    · next hneg =>
      cases h
      exact ⟨nofun, fun _ => hneg⟩
    · split at h
      · next err hpayload =>
        cases h
        exact hfull hpayload
      · cases h

theorem robust_iff (r : Bytes) : Robust r ↔ ∀ n, declaredLength r = some n → n < 2 ^ 63 := by
  match r with
  | [] => exact ⟨fun _ _ h => (nomatch h), fun _ => ⟨nofun, nofun⟩⟩
  | [_] => exact ⟨fun _ _ h => (nomatch h), fun _ => ⟨nofun, nofun⟩⟩
  | first :: second :: r =>
    cases hlength : readLength second r with
    | error err =>
      have hnone : declaredLength (first :: second :: r) = none := by rw [declaredLength, hlength]; rfl
      have hread : readFrame (first :: second :: r) = .error err := by rw [readFrame, hlength]
      refine ⟨fun _ n hn => (nomatch hnone.symm.trans hn), fun _ => ⟨fun hpanic => ?_, fun n hn => ?_⟩⟩
      case refine_2 => exact nomatch hnone.symm.trans hn
      obtain rfl := Except.error.inj (hread.symm.trans hpanic)
      exact (readLength_error hlength).elim nofun nofun
    | ok p =>
      obtain ⟨n, rest⟩ := p
      have hsome : declaredLength (first :: second :: r) = some n := by rw [declaredLength, hlength]; rfl
      constructor
      · rintro ⟨-, hrefuses⟩ m hm
        obtain rfl := Option.some_inj.1 (hsome.symm.trans hm)
        by_contra hlarge
        -- the length becomes negative, and the comparison lets it through
        have hneg : int64 n ≤ maxFrameSize := by
          have hlt : n < 256 ^ 8 := readLength_lt hlength
          rw [int64, if_neg hlarge]
          omega
        have hread := hrefuses n hsome (Nat.lt_of_lt_of_le (by decide) (Nat.not_lt.1 hlarge))
        exact (readFrame_error hlength (Int.not_lt.2 hneg) hread).1 rfl
      · intro hsmall
        have hint := int64_of_lt (hsmall n hsome)
        constructor
        · intro hread
          by_cases hsize : (maxFrameSize : Int) < int64 n
          · rw [readFrame, hlength] at hread
            dsimp only at hread
            rw [if_pos hsize] at hread
            cases hread
          · have hneg := (readFrame_error hlength hsize hread).2 rfl
            omega
        · intro m hm hlarge
          obtain rfl := Option.some_inj.1 (hsome.symm.trans hm)
          rw [readFrame, hlength]
          dsimp only
          rw [hint, if_pos (Int.ofNat_lt.2 hlarge)]

/-- **Frames are read back**, and on every stream `ReadFrame` is robust exactly if no length from `2 ^ 63` on is
declared. -/
theorem framing_exact (sent : List Sent) (hsent : ∀ s ∈ sent, s.Valid) (rest : Bytes) (r : Bytes) :
    readFrames sent.length (sent.flatMap Sent.encode ++ rest) = .ok (sent.map Sent.frame, rest) ∧
      (Robust r ↔ ∀ n, declaredLength r = some n → n < 2 ^ 63) :=
  ⟨readFrames_encode hsent rest, robust_iff r⟩

/-- A text, masked, and an empty ping. -/
theorem framing_exact_two :
    readFrames 2 ([⟨1, [104, 105], some [1, 2, 3, 4]⟩, ⟨9, [], none⟩].flatMap Sent.encode ++ []) =
      .ok ([⟨true, 1, true, [104, 105]⟩, ⟨true, 9, false, []⟩], []) := by
  refine (framing_exact [⟨1, [104, 105], some [1, 2, 3, 4]⟩, ⟨9, [], none⟩] ?_ [] []).1
  simp only [forall_mem_cons]
  refine ⟨⟨by decide, by decide, ?_⟩, ⟨by decide, by decide, nofun⟩, nofun⟩
  rintro key ⟨⟩
  rfl

/-- **A header that declares `2 ^ 63` bytes makes `ReadFrame` panic.** -/
theorem large_length_panics : readFrame [0x82, 127, 0x80, 0, 0, 0, 0, 0, 0, 0] = .error .panic ∧
    declaredLength [0x82, 127, 0x80, 0, 0, 0, 0, 0, 0, 0] = some (2 ^ 63) := by
  decide

end SystemDesignLabs.WebsocketGateway

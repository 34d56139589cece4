import SystemDesignLabs.Core.Cells

/-!
# Streams of bits

A writer that packs bits into bytes, the most significant bit of a byte first, and a reader that takes them back. What
was written so far is a list of bits (`Writes`), and so is what a reader has in front of it (`Rest`): a write adds
bits at the end, a read takes them from the front, and a reader of the bytes of a writer has all its bits in front of
it (`Writes.rest`). A field of `n` bits gives back the number modulo `2 ^ n` (`Rest.readBits`).
-/

namespace SystemDesignLabs.Core

open List Option

structure BitWriter where
  bytes : List UInt8
  bitPos : Nat

namespace BitWriter

def new : BitWriter := ⟨[], 0⟩

/-- Write a bit that is not 0, or 0. -/
def writeBit (w : BitWriter) (bit : UInt8) : BitWriter :=
  let bytePos := w.bitPos / 8
  let bitOffset := 7 - w.bitPos % 8
  let bytes := if w.bytes.length ≤ bytePos then w.bytes ++ [0] else w.bytes
  let bytes := if bit ≠ 0 then bytes.modify bytePos (· ||| 1 <<< UInt8.ofNat bitOffset) else bytes
  ⟨bytes, w.bitPos + 1⟩

/-- Write the low bits of a number, the most significant one first. -/
def writeBits (w : BitWriter) (value : UInt64) : Nat → BitWriter
  | 0 => w
  | i + 1 => writeBits (w.writeBit ((value >>> UInt64.ofNat i) &&& 1).toUInt8) value i

end BitWriter

structure BitReader where
  bytes : List UInt8
  bitPos : Nat
  maxBits : Nat

namespace BitReader

def new (bytes : List UInt8) (maxBits : Nat) : BitReader := ⟨bytes, 0, maxBits⟩

/-- The next bit; 0 behind the end. -/
def readBit (r : BitReader) : UInt64 × BitReader :=
  if r.maxBits ≤ r.bitPos then (0, r)
  else
    let bytePos := r.bitPos / 8
    let bitOffset := 7 - r.bitPos % 8
    let next := { r with bitPos := r.bitPos + 1 }
    match r.bytes[bytePos]? with
    | some byte => (((byte >>> UInt8.ofNat bitOffset) &&& 1).toUInt64, next)
    | none => (0, next)

/-- Read bits behind those that were read. -/
def readBitsFrom (result : UInt64) : Nat → BitReader → UInt64 × BitReader
  | 0, r => (result, r)
  | count + 1, r => readBitsFrom (result <<< 1 ||| r.readBit.1) count r.readBit.2

def readBits (r : BitReader) (count : Nat) : UInt64 × BitReader := readBitsFrom 0 count r

end BitReader

/-! ## Bits of bytes -/

/-- The bit at a position, the most significant bit of a byte first; 0 behind the end. -/
def bitAt (bytes : List UInt8) (i : Nat) : Bool := (bytes.getD (i / 8) 0).toNat.testBit (7 - i % 8)

theorem testBit_or_one_shiftLeft (b : UInt8) {k : Nat} (hk : k < 8) (j : Nat) :
    (b ||| 1 <<< UInt8.ofNat k).toNat.testBit j = (b.toNat.testBit j || decide (j = k)) := by
  have hshift : (1 <<< UInt8.ofNat k : UInt8).toNat = 2 ^ k := by
    have hall : ∀ k < 8, (1 <<< UInt8.ofNat k : UInt8).toNat = 2 ^ k := by decide
    exact hall k hk
  rw [UInt8.toNat_or, Nat.testBit_or, hshift, Nat.testBit_two_pow]
  simp only [eq_comm]

/-- A bit that is set at a position is there, and the other bits are as before. -/
theorem bitAt_modify {bytes : List UInt8} {pos : Nat} (hin : pos / 8 < bytes.length) (i : Nat) :
    bitAt (bytes.modify (pos / 8) (· ||| 1 <<< UInt8.ofNat (7 - pos % 8))) i = (bitAt bytes i || decide (i = pos)) := by
  rw [bitAt, bitAt, getD_eq_getElem?_getD, getD_eq_getElem?_getD, getElem?_modify_cell]
  by_cases hbyte : i / 8 = pos / 8
  · have hi : i / 8 < bytes.length := hbyte ▸ hin
    rw [if_pos hbyte, getElem?_eq_getElem hi, map_some, getD_some, getD_some,
      testBit_or_one_shiftLeft _ (by omega)]
    congr 1
    refine decide_eq_decide.2 ?_
    omega
  · have hne : i ≠ pos := fun heq => hbyte (by rw [heq])
    rw [if_neg hbyte, decide_eq_false hne, Bool.or_false]

theorem toNat_shiftRight_and_one (b : UInt8) {k : Nat} (hk : k < 8) :
    ((b >>> UInt8.ofNat k) &&& 1).toUInt64 = if b.toNat.testBit k then 1 else 0 := by
  have hmod : (UInt8.ofNat k).toNat % 8 = k := by
    rw [UInt8.toNat_ofNat', Nat.mod_eq_of_lt (by omega : k < 2 ^ 8), Nat.mod_eq_of_lt hk]
  have hbit : (((b >>> UInt8.ofNat k) &&& 1).toUInt64).toNat = if b.toNat.testBit k then 1 else 0 := by
    rw [UInt8.toNat_toUInt64, UInt8.toNat_and, UInt8.toNat_shiftRight, hmod]
    show b.toNat >>> k &&& 1 = _
    rw [Nat.and_one_is_mod, Nat.testBit, Nat.one_and_eq_mod_two]
    rcases Nat.mod_two_eq_zero_or_one (b.toNat >>> k) with h | h
    · rw [h]
      rfl
    · rw [h]
      rfl
  apply UInt64.toNat_inj.1
  rw [hbit]
  split <;> rfl

/-! ## Writing -/

/-- The writer holds the bits, and zeros fill its last byte. -/
structure Writes (w : BitWriter) (bits : List Bool) : Prop where
  bitPos : w.bitPos = bits.length
  length : w.bytes.length = (bits.length + 7) / 8
  bitAt : ∀ i, Core.bitAt w.bytes i = bits.getD i false

variable {w : BitWriter} {bits : List Bool}

theorem writes_new : Writes BitWriter.new [] :=
  ⟨rfl, rfl, fun i => by simp [Core.bitAt, BitWriter.new]⟩

theorem getD_concat (bits : List Bool) (b : Bool) (i : Nat) :
    (bits ++ [b]).getD i false = (bits.getD i false || (decide (i = bits.length) && b)) := by
  rw [getD_eq_getElem?_getD, getD_eq_getElem?_getD, getElem?_append]
  rcases Nat.lt_trichotomy i bits.length with hi | hi | hi
  · rw [if_pos hi, decide_eq_false (Nat.ne_of_lt hi), Bool.false_and, Bool.or_false]
  · rw [if_neg (by omega), hi, Nat.sub_self, getElem?_eq_none (Nat.le_refl _)]
    simp
  · have hone : [b][i - bits.length]? = none := getElem?_eq_none (by rw [length_singleton]; omega)
    rw [if_neg (by omega), hone, getElem?_eq_none (Nat.le_of_lt hi), decide_eq_false (Nat.ne_of_gt hi)]
    rfl

/-- A bit that is written is added at the end. -/
theorem Writes.writeBit (h : Writes w bits) (bit : UInt8) : Writes (w.writeBit bit) (bits ++ [decide (bit ≠ 0)]) := by
  have hpos := h.bitPos
  have hlen := h.length
  -- the bytes with room for the bit
  have hroom : ∃ bytes, (if w.bytes.length ≤ w.bitPos / 8 then w.bytes ++ [0] else w.bytes) = bytes ∧
      bytes.length = (bits.length + 1 + 7) / 8 ∧ ∀ i, Core.bitAt bytes i = bits.getD i false := by
    refine ⟨_, rfl, ?_, fun i => ?_⟩
    · split
      · rw [length_append, length_singleton]
        omega
      · omega
    · split
      · rw [← h.bitAt i, Core.bitAt, Core.bitAt, getD_eq_getElem?_getD, getD_eq_getElem?_getD, getElem?_append]
        split
        · rfl
        · next hge =>
          rw [getElem?_eq_none (Nat.le_of_not_lt hge)]
          cases i / 8 - w.bytes.length <;> rfl
      · exact h.bitAt i
  obtain ⟨bytes, hbytes, hlen', hat⟩ := hroom
  rw [BitWriter.writeBit]
  simp only [hbytes]
  have hin : w.bitPos / 8 < bytes.length := by omega
  refine ⟨?_, ?_, fun i => ?_⟩
  · rw [length_append, length_singleton, hpos]
  · rw [length_append, length_singleton, ← hlen']
    split
    · rw [length_modify]
    · rfl
  · rw [getD_concat, ← hat i]
    by_cases hbit : bit = 0
    · simp only [hbit, ne_eq, not_true_eq_false, if_false, decide_false, Bool.and_false, Bool.or_false]
    · simp only [hbit, ne_eq, not_false_eq_true, if_true, decide_true, Bool.and_true]
      rw [hpos] at hin ⊢
      exact bitAt_modify hin i

theorem Writes.writeOne (h : Writes w bits) : Writes (w.writeBit 1) (bits ++ [true]) := h.writeBit 1

theorem Writes.writeZero (h : Writes w bits) : Writes (w.writeBit 0) (bits ++ [false]) := h.writeBit 0

/-- The low bits of a number, the most significant one first. -/
def lowBits (value : UInt64) : Nat → List Bool
  | 0 => []
  | i + 1 => value.toNat.testBit i :: lowBits value i

theorem length_lowBits (value : UInt64) (n : Nat) : (lowBits value n).length = n := by
  induction n with
  | zero => rfl
  | succ n ih => rw [lowBits, length_cons, ih]

theorem shiftRight_and_one_ne_zero (value : UInt64) {i : Nat} (hi : i < 64) :
    decide (((value >>> UInt64.ofNat i) &&& 1).toUInt8 ≠ 0) = value.toNat.testBit i := by
  have hmod : (UInt64.ofNat i).toNat % 64 = i := by
    rw [UInt64.toNat_ofNat', Nat.mod_eq_of_lt (by omega : i < 2 ^ 64), Nat.mod_eq_of_lt hi]
  have hbit : (((value >>> UInt64.ofNat i) &&& 1).toUInt8).toNat = value.toNat >>> i % 2 := by
    rw [UInt64.toNat_toUInt8, UInt64.toNat_and, UInt64.toNat_shiftRight, hmod]
    show (value.toNat >>> i &&& 1) % 256 = _
    rw [Nat.and_one_is_mod]
    omega
  have hzero : ((value >>> UInt64.ofNat i) &&& 1).toUInt8 = 0 ↔ value.toNat >>> i % 2 = 0 := by
    rw [← UInt8.toNat_inj, hbit]
    rfl
  rw [Nat.testBit, Nat.one_and_eq_mod_two]
  rcases Nat.mod_two_eq_zero_or_one (value.toNat >>> i) with h | h
  · simp only [ne_eq, hzero.2 h, not_true_eq_false, decide_false, h]
    rfl
  · have hne : ¬ ((value >>> UInt64.ofNat i) &&& 1).toUInt8 = 0 := fun heq =>
      absurd (h.symm.trans (hzero.1 heq)) (by decide)
    simp only [ne_eq, hne, not_false_eq_true, decide_true, h]
    rfl

/-- A field that is written is added at the end. -/
theorem Writes.writeBits (h : Writes w bits) (value : UInt64) {n : Nat} (hn : n ≤ 64) :
    Writes (w.writeBits value n) (bits ++ lowBits value n) := by
  induction n generalizing w bits with
  | zero =>
    rw [lowBits, append_nil]
    exact h
  | succ n ih =>
    have hbit := h.writeBit ((value >>> UInt64.ofNat n) &&& 1).toUInt8
    rw [shiftRight_and_one_ne_zero value (Nat.lt_of_succ_le hn)] at hbit
    have hrest := ih hbit (Nat.le_of_succ_le hn)
    rw [append_assoc, singleton_append] at hrest
    exact hrest

/-! ## Reading -/

/-- The bits that a reader has in front of it. -/
structure Rest (r : BitReader) (bits : List Bool) : Prop where
  maxBits : r.maxBits = r.bitPos + bits.length
  bitAt : ∀ i < bits.length, Core.bitAt r.bytes (r.bitPos + i) = bits.getD i false

variable {r : BitReader}

/-- A reader of what was written has all its bits in front of it. -/
theorem Writes.rest (h : Writes w bits) : Rest (BitReader.new w.bytes w.bitPos) bits := by
  refine ⟨?_, fun i _ => ?_⟩
  · rw [h.bitPos]
    exact (Nat.zero_add _).symm
  · have hzero : (BitReader.new w.bytes w.bitPos).bitPos + i = i := Nat.zero_add i
    rw [hzero]
    exact h.bitAt i

theorem Rest.cons {b : Bool} (h : Rest r (b :: bits)) :
    Core.bitAt r.bytes r.bitPos = b ∧ Rest { r with bitPos := r.bitPos + 1 } bits := by
  have hmax := h.maxBits
  rw [length_cons] at hmax
  have hb := h.bitAt 0 (Nat.succ_pos _)
  rw [Nat.add_zero, getD_cons_zero] at hb
  have hmax' : r.maxBits = r.bitPos + 1 + bits.length := by omega
  refine ⟨hb, hmax', fun i hi => ?_⟩
  have hi' := h.bitAt (i + 1) (by rw [length_cons]; omega)
  rw [getD_cons_succ] at hi'
  rw [← hi', Nat.add_assoc, Nat.add_comm 1 i]

/-- A read takes the bit in front. -/
theorem Rest.readBit {b : Bool} (h : Rest r (b :: bits)) :
    r.readBit.1 = (if b then 1 else 0) ∧ Rest r.readBit.2 bits := by
  have hmax := h.maxBits
  rw [length_cons] at hmax
  obtain ⟨hb, hnext⟩ := h.cons
  rw [BitReader.readBit, if_neg (by omega)]
  simp only
  rw [Core.bitAt, getD_eq_getElem?_getD] at hb
  cases hbyte : r.bytes[r.bitPos / 8]? with
  | none =>
    rw [hbyte] at hb
    have hfalse : b = false := hb.symm.trans (Nat.zero_testBit _)
    subst hfalse
    exact ⟨rfl, hnext⟩
  | some byte =>
    rw [hbyte] at hb
    refine ⟨?_, hnext⟩
    rw [← hb]
    exact toNat_shiftRight_and_one byte (by omega)

theorem Rest.readOne (h : Rest r (true :: bits)) : r.readBit.1 ≠ 0 ∧ Rest r.readBit.2 bits := by
  obtain ⟨hbit, hrest⟩ := h.readBit
  refine ⟨?_, hrest⟩
  rw [hbit]
  decide

theorem Rest.readZero (h : Rest r (false :: bits)) : r.readBit.1 = 0 ∧ Rest r.readBit.2 bits := h.readBit

theorem testBit_mod_two_pow (v n : Nat) : v % 2 ^ (n + 1) = (if v.testBit n then 1 else 0) * 2 ^ n + v % 2 ^ n := by
  rw [Nat.mod_pow_succ, Nat.testBit, Nat.one_and_eq_mod_two, Nat.shiftRight_eq_div_pow, Nat.add_comm, Nat.mul_comm]
  rcases Nat.mod_two_eq_zero_or_one (v / 2 ^ n) with h | h
  · rw [h]
    rfl
  · rw [h]
    rfl

theorem Rest.readBitsFrom {value result : UInt64} {n : Nat} (h : Rest r (lowBits value n ++ bits)) :
    (BitReader.readBitsFrom result n r).1.toNat = (result.toNat * 2 ^ n + value.toNat % 2 ^ n) % 2 ^ 64 ∧
      Rest (BitReader.readBitsFrom result n r).2 bits := by
  induction n generalizing r result with
  | zero =>
    refine ⟨?_, h⟩
    rw [Nat.pow_zero, Nat.mod_one, Nat.mul_one, Nat.add_zero]
    exact (Nat.mod_eq_of_lt result.toNat_lt).symm
  | succ n ih =>
    rw [lowBits, cons_append] at h
    obtain ⟨hbit, hrest⟩ := h.readBit
    obtain ⟨hvalue, hrest'⟩ := @ih _ (result <<< 1 ||| r.readBit.1) hrest
    refine ⟨hvalue.trans ?_, hrest'⟩
    have hor : (result <<< 1 ||| r.readBit.1).toNat =
        (result.toNat * 2 + if value.toNat.testBit n then 1 else 0) % 2 ^ 64 := by
      have hshift : (result <<< 1).toNat = 2 * (result.toNat % 2 ^ 63) := by
        rw [UInt64.toNat_shiftLeft]
        show result.toNat <<< 1 % 2 ^ 64 = _
        rw [Nat.shiftLeft_eq]
        omega
      rw [UInt64.toNat_or, hshift, hbit]
      have hlt := result.toNat_lt
      split
      · show 2 * (result.toNat % 2 ^ 63) ||| 1 = _
        have hor := @Nat.two_pow_add_eq_or_of_lt 1 1 (by decide) (result.toNat % 2 ^ 63)
        rw [Nat.pow_one] at hor
        rw [← hor]
        omega
      · show 2 * (result.toNat % 2 ^ 63) ||| 0 = _
        rw [Nat.or_zero]
        omega
    rw [hor, testBit_mod_two_pow value.toNat n, Nat.pow_succ 2 n]
    have hmod : ∀ a c : Nat, (a % 2 ^ 64 * 2 ^ n + c) % 2 ^ 64 = (a * 2 ^ n + c) % 2 ^ 64 := fun a c =>
      ((Nat.mod_modEq a (2 ^ 64)).mul_right _).add_right _
    rw [hmod]
    congr 1
    ring

/-- A field is read back modulo its size. -/
theorem Rest.readBits {value : UInt64} {n : Nat} (h : Rest r (lowBits value n ++ bits)) :
    (r.readBits n).1.toNat = value.toNat % 2 ^ n ∧ Rest (r.readBits n).2 bits := by
  obtain ⟨hvalue, hrest⟩ := @Rest.readBitsFrom bits r value 0 n h
  refine ⟨hvalue.trans ?_, hrest⟩
  show (0 * 2 ^ n + value.toNat % 2 ^ n) % 2 ^ 64 = _
  rw [Nat.zero_mul, Nat.zero_add]
  exact Nat.mod_eq_of_lt (Nat.lt_of_le_of_lt (Nat.mod_le _ _) value.toNat_lt)

end SystemDesignLabs.Core

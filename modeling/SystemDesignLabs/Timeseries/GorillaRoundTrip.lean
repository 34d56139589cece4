import SystemDesignLabs.Timeseries.Chunk

/-!
# The round trip of a compressed chunk

Both streams are described by the bits of their fields (`dodBits`, `xorBits`), which the writer adds at the end and the
reader takes from the front. The timestamp stream stays in step whatever is written to it, and a delta of deltas comes
back if and only if it fits (`readDod_spec`). A value that does not fit comes back wrong at once (`readXor_ne`), so a
chunk gives back its points if and only if everything in it fits (**`gorilla_round_trip_iff`**).
-/

namespace SystemDesignLabs.Timeseries

open List Core

/-! ## Leading and trailing zeros -/

section Zeros

variable {x : UInt64}

theorem exists_testBit (hx : x ≠ 0) : ∃ i < 64, x.toNat.testBit i = true := by
  have hne : x.toNat ≠ 0 := fun h => hx (UInt64.toNat_inj.1 h)
  obtain ⟨i, hi⟩ := Nat.exists_testBit_of_ne_zero hne
  refine ⟨i, ?_, hi⟩
  by_contra hge
  have hlt : x.toNat < 2 ^ i :=
    Nat.lt_of_lt_of_le x.toNat_lt (Nat.pow_le_pow_right (by decide) (Nat.le_of_not_lt hge))
  rw [Nat.testBit_lt_two_pow hlt] at hi
  cases hi

theorem find_range_getD {p : Nat → Bool} {n i : Nat} (hi : i < n) (hp : p i = true) (default : Nat) :
    p (((List.range n).find? p).getD default) = true ∧ ((List.range n).find? p).getD default ≤ i ∧
      ∀ j < ((List.range n).find? p).getD default, p j = false := by
  cases hfind : (range n).find? p with
  | none =>
    rw [find?_eq_none] at hfind
    exact absurd hp (hfind i (mem_range.2 hi))
  | some k =>
    obtain ⟨hk, -, hlt⟩ := find?_range_eq_some.1 hfind
    rw [Option.getD_some]
    refine ⟨hk, ?_, fun j hj => by simpa using hlt j hj⟩
    by_contra hgt
    have hnot := hlt i (by omega)
    rw [hp] at hnot
    cases hnot

theorem trailingZeros_spec (hx : x ≠ 0) :
    trailingZeros x < 64 ∧ x.toNat.testBit (trailingZeros x) = true ∧ 2 ^ trailingZeros x ∣ x.toNat := by
  obtain ⟨i, hi, hbit⟩ := exists_testBit hx
  obtain ⟨hset, hle, hlow⟩ := @find_range_getD (fun i => x.toNat.testBit i) 64 i hi hbit 64
  refine ⟨Nat.lt_of_le_of_lt hle hi, hset, ?_⟩
  rw [Nat.dvd_iff_mod_eq_zero]
  apply Nat.eq_of_testBit_eq
  intro j
  rw [Nat.testBit_mod_two_pow, Nat.zero_testBit]
  by_cases hj : j < trailingZeros x
  · rw [hlow j hj, Bool.and_false]
  · rw [decide_eq_false hj, Bool.false_and]

theorem leadingZeros_spec (hx : x ≠ 0) :
    leadingZeros x < 64 ∧ x.toNat.testBit (63 - leadingZeros x) = true ∧ x.toNat < 2 ^ (64 - leadingZeros x) := by
  obtain ⟨i, hi, hbit⟩ := exists_testBit hx
  have hbit' : x.toNat.testBit (63 - (63 - i)) = true := by
    rw [Nat.sub_sub_self (by omega)]
    exact hbit
  obtain ⟨hset, hle, hhigh⟩ :=
    @find_range_getD (fun i => x.toNat.testBit (63 - i)) 64 (63 - i) (by omega) hbit' 64
  have hlt : leadingZeros x < 64 := Nat.lt_of_le_of_lt hle (by omega)
  refine ⟨hlt, hset, ?_⟩
  apply Nat.lt_pow_two_of_testBit
  intro j hj
  by_cases hj64 : j < 64
  · have h := hhigh (63 - j) (show 63 - j < leadingZeros x by omega)
    rw [Nat.sub_sub_self (by omega)] at h
    exact h
  · exact Nat.testBit_lt_two_pow
      (Nat.lt_of_lt_of_le x.toNat_lt (Nat.pow_le_pow_right (by decide) (Nat.le_of_not_lt hj64)))

theorem zeros_le (hx : x ≠ 0) : leadingZeros x + trailingZeros x ≤ 63 := by
  obtain ⟨hlz, -, hlt⟩ := leadingZeros_spec hx
  obtain ⟨-, hset, -⟩ := trailingZeros_spec hx
  by_contra hgt
  have hle : 2 ^ (64 - leadingZeros x) ≤ 2 ^ trailingZeros x := Nat.pow_le_pow_right (by decide) (by omega)
  rw [Nat.testBit_lt_two_pow (Nat.lt_of_lt_of_le hlt hle)] at hset
  cases hset

end Zeros

theorem subU32_of_le {a b : Nat} (hba : b ≤ a) (ha : a < 2 ^ 32) : subU32 a b = a - b := by
  rw [subU32]
  omega

theorem windowLength {lz tz : Nat} (h : lz + tz ≤ 64) : subU32 (subU32 64 lz) tz = 64 - lz - tz := by
  rw [subU32_of_le (by omega : lz ≤ 64) (by decide), subU32_of_le (by omega) (by omega)]

/-! ## The timestamp stream -/

/-- The bits of a delta of deltas. -/
def dodBits (dod : Int64) : List Bool :=
  if dod = 0 then [false]
  else if -63 ≤ dod ∧ dod ≤ 64 then true :: false :: lowBits (dod + 64).toUInt64 7
  else if -255 ≤ dod ∧ dod ≤ 256 then true :: true :: false :: lowBits (dod + 256).toUInt64 9
  else true :: true :: true :: lowBits (dod + 2048).toUInt64 12

variable {bits : List Bool}

theorem writes_writeDod {w : BitWriter} (h : Writes w bits) (dod : Int64) :
    Writes (writeDod w dod) (bits ++ dodBits dod) := by
  rw [writeDod, dodBits]
  split
  · exact h.writeZero
  · split
    · have hw := h.writeOne.writeZero.writeBits (dod + 64).toUInt64 (n := 7) (by decide)
      simpa using hw
    · split
      · have hw := h.writeOne.writeOne.writeZero.writeBits (dod + 256).toUInt64 (n := 9) (by decide)
        simpa using hw
      · have hw := h.writeOne.writeOne.writeOne.writeBits (dod + 2048).toUInt64 (n := 12) (by decide)
        simpa using hw

variable {n : Nat}

theorem sub_eq_iff_lt {v : UInt64} {dod c : Int64} (hv : v.toNat = (dod + c).toUInt64.toNat % 2 ^ n) :
    v.toInt64 - c = dod ↔ (dod + c).toUInt64.toNat < 2 ^ n := by
  have heq : v.toInt64 = dod + c ↔ v = (dod + c).toUInt64 := by
    constructor
    · intro h
      rw [← h]
      rfl
    · intro h
      rw [h]
      rfl
  rw [Int64.sub_eq_iff_eq_add, heq, ← UInt64.toNat_inj, hv]
  constructor
  · intro h
    rw [← h]
    exact Nat.mod_lt _ (Nat.two_pow_pos n)
  · exact Nat.mod_eq_of_lt

theorem toNat_lt_iff (a : Int64) (hn : n ≤ 63) :
    a.toUInt64.toNat < 2 ^ n ↔ 0 ≤ a.toInt ∧ a.toInt < 2 ^ n := by
  have hpow : 2 ^ n ≤ 2 ^ 63 := Nat.pow_le_pow_right (by decide) hn
  have hlt : a.toUInt64.toNat < 2 ^ 64 := a.toUInt64.toNat_lt
  have hcond : a.toInt = if 2 * a.toUInt64.toNat < 2 ^ 64 then (a.toUInt64.toNat : Int)
      else (a.toUInt64.toNat : Int) - (2 ^ 64 : Nat) := BitVec.toInt_eq_toNat_cond a.toBitVec
  rw [hcond]
  push_cast
  have hcast : ((2 ^ n : Nat) : Int) = 2 ^ n := by push_cast; rfl
  rw [← hcast]
  generalize 2 ^ n = m at hpow ⊢
  split <;> omega

/-- A delta of deltas is read back if and only if it fits, and the next field follows. -/
theorem readDod_spec {r : BitReader} {dod : Int64} (h : Rest r (dodBits dod ++ bits)) :
    ((readDod r).1 = dod ↔ DodFits dod) ∧ Rest (readDod r).2 bits := by
  have hlow : (-2 ^ 63 : Int) ≤ dod.toInt := dod.le_toInt
  have hhigh : dod.toInt < 2 ^ 63 := dod.toInt_lt
  have hadd : ∀ c : Int64, (dod + c).toInt = (dod.toInt + c.toInt).bmod (2 ^ 64) := Int64.toInt_add dod
  have hzero : dod = 0 ↔ dod.toInt = 0 := Int64.toInt_inj.symm
  have h64 : dod = 64 ↔ dod.toInt = 64 := Int64.toInt_inj.symm
  have h256 : dod = 256 ↔ dod.toInt = 256 := Int64.toInt_inj.symm
  have hfits : DodFits dod ↔ -2048 ≤ dod.toInt ∧ dod.toInt ≤ 2047 ∧ dod.toInt ≠ 64 ∧ dod.toInt ≠ 256 := by
    rw [DodFits, Int64.le_iff_toInt_le, Int64.le_iff_toInt_le, Ne, Ne, h64, h256]
    rfl
  have hsmall : (-63 ≤ dod ∧ dod ≤ 64) ↔ -63 ≤ dod.toInt ∧ dod.toInt ≤ 64 := by
    rw [Int64.le_iff_toInt_le, Int64.le_iff_toInt_le]
    rfl
  have hmedium : (-255 ≤ dod ∧ dod ≤ 256) ↔ -255 ≤ dod.toInt ∧ dod.toInt ≤ 256 := by
    rw [Int64.le_iff_toInt_le, Int64.le_iff_toInt_le]
    rfl
  rw [hfits]
  rw [dodBits] at h
  split at h
  · next hdod =>
    obtain ⟨hbit, hrest⟩ := Rest.readZero h
    rw [readDod]
    simp only [hbit, if_true]
    refine ⟨?_, hrest⟩
    rw [hdod]
    decide
  · next hdod =>
    rw [hzero] at hdod
    split at h
    · next hbucket =>
      rw [hsmall] at hbucket
      obtain ⟨hbit₁, h⟩ := Rest.readOne h
      obtain ⟨hbit₂, h⟩ := Rest.readZero h
      obtain ⟨hv, hrest⟩ := Rest.readBits h
      rw [readDod]
      simp only [hbit₁, if_false, hbit₂, if_true]
      refine ⟨?_, hrest⟩
      rw [sub_eq_iff_lt hv, toNat_lt_iff _ (by decide), hadd, Int.bmod_def, show (64 : Int64).toInt = 64 from rfl]
      split <;> omega
    · next hnot =>
      rw [hsmall] at hnot
      split at h
      · next hbucket =>
        rw [hmedium] at hbucket
        obtain ⟨hbit₁, h⟩ := Rest.readOne h
        obtain ⟨hbit₂, h⟩ := Rest.readOne h
        obtain ⟨hbit₃, h⟩ := Rest.readZero h
        obtain ⟨hv, hrest⟩ := Rest.readBits h
        rw [readDod]
        simp only [hbit₁, if_false, hbit₂, hbit₃, if_true]
        refine ⟨?_, hrest⟩
        rw [sub_eq_iff_lt hv, toNat_lt_iff _ (by decide), hadd, Int.bmod_def, show (256 : Int64).toInt = 256 from rfl]
        split <;> omega
      · next hnot' =>
        rw [hmedium] at hnot'
        obtain ⟨hbit₁, h⟩ := Rest.readOne h
        obtain ⟨hbit₂, h⟩ := Rest.readOne h
        obtain ⟨hbit₃, h⟩ := Rest.readOne h
        obtain ⟨hv, hrest⟩ := Rest.readBits h
        rw [readDod]
        simp only [hbit₁, if_false, hbit₂, hbit₃]
        refine ⟨?_, hrest⟩
        rw [sub_eq_iff_lt hv, toNat_lt_iff _ (by decide), hadd, Int.bmod_def,
          show (2048 : Int64).toInt = 2048 from rfl]
        split <;> omega

/-! ## The value stream -/

/-- The bits of the XOR of a value with the last one. -/
def xorBits (i : Nat) (xor : UInt64) (prevLz prevTz : Nat) : List Bool :=
  if xor = 0 then [false]
  else if Reuses i xor prevLz prevTz then
    true :: false :: lowBits (xor >>> UInt64.ofNat prevTz) (64 - prevLz - prevTz)
  else
    true :: true :: (lowBits (UInt64.ofNat (leadingZeros xor)) 5 ++
      (lowBits (UInt64.ofNat (64 - leadingZeros xor - trailingZeros xor)) 6 ++
        lowBits (xor >>> UInt64.ofNat (trailingZeros xor)) (64 - leadingZeros xor - trailingZeros xor)))

theorem writes_writeXor {w : BitWriter} (h : Writes w bits) (i : Nat) (xor : UInt64) {prevLz prevTz : Nat}
    (hwindow : prevLz + prevTz ≤ 63) :
    Writes (writeXor w i xor prevLz prevTz) (bits ++ xorBits i xor prevLz prevTz) := by
  rw [writeXor, xorBits]
  split
  · exact h.writeZero
  · next hxor =>
    have hzeros := zeros_le hxor
    simp only
    rw [windowLength (by omega : leadingZeros xor + trailingZeros xor ≤ 64),
      windowLength (by omega : prevLz + prevTz ≤ 64)]
    split
    · have hw := h.writeOne.writeZero.writeBits (xor >>> UInt64.ofNat prevTz)
        (by omega : 64 - prevLz - prevTz ≤ 64)
      simpa using hw
    · have hw := ((h.writeOne.writeOne.writeBits (UInt64.ofNat (leadingZeros xor)) (n := 5) (by decide)).writeBits
        (UInt64.ofNat (64 - leadingZeros xor - trailingZeros xor)) (n := 6) (by decide)).writeBits
        (xor >>> UInt64.ofNat (trailingZeros xor))
        (by omega : 64 - leadingZeros xor - trailingZeros xor ≤ 64)
      simpa using hw

theorem toNat_ofNat_of_lt (hn : n < 128) : (UInt64.ofNat n).toNat = n := by
  rw [UInt64.toNat_ofNat']
  exact Nat.mod_eq_of_lt (by omega)

theorem toNat_shiftRight_ofNat (x : UInt64) (hn : n < 64) :
    (x >>> UInt64.ofNat n).toNat = x.toNat / 2 ^ n := by
  rw [UInt64.toNat_shiftRight, toNat_ofNat_of_lt (by omega), Nat.mod_eq_of_lt hn, Nat.shiftRight_eq_div_pow]

theorem toNat_shiftLeft_ofNat (x : UInt64) (hn : n < 64) :
    (x <<< UInt64.ofNat n).toNat = x.toNat * 2 ^ n % 2 ^ 64 := by
  rw [UInt64.toNat_shiftLeft, toNat_ofNat_of_lt (by omega), Nat.mod_eq_of_lt hn, Nat.shiftLeft_eq]

theorem shiftLeft_window {xor v : UInt64} {lz tz : Nat} (hsum : lz + tz ≤ 63) (hlz : xor.toNat < 2 ^ (64 - lz))
    (htz : 2 ^ tz ∣ xor.toNat) (hv : v.toNat = (xor >>> UInt64.ofNat tz).toNat % 2 ^ (64 - lz - tz)) :
    v <<< UInt64.ofNat tz = xor := by
  have hpow : 2 ^ (64 - lz) = 2 ^ tz * 2 ^ (64 - lz - tz) := by
    rw [← Nat.pow_add]
    congr 1
    omega
  have hdiv : xor.toNat / 2 ^ tz < 2 ^ (64 - lz - tz) := Nat.div_lt_of_lt_mul (hpow ▸ hlz)
  rw [toNat_shiftRight_ofNat xor (by omega), Nat.mod_eq_of_lt hdiv] at hv
  apply UInt64.toNat_inj.1
  rw [toNat_shiftLeft_ofNat v (by omega), hv, Nat.div_mul_cancel htz]
  exact Nat.mod_eq_of_lt xor.toNat_lt

theorem testBit_shiftLeft_ofNat (v : UInt64) {n j : Nat} (hn : n < 64) (hj : j < n) :
    (v <<< UInt64.ofNat n).toNat.testBit j = false := by
  have hnot : ¬ n ≤ j := Nat.not_le_of_lt hj
  rw [toNat_shiftLeft_ofNat v hn, Nat.testBit_mod_two_pow, Nat.testBit_mul_two_pow, decide_eq_false hnot,
    Bool.false_and, Bool.and_false]

section ReadXor

variable {r : BitReader} {prev cur : UInt64} {i prevLz prevTz : Nat} {bits : List Bool}

section

variable (h : Rest r (xorBits i (cur ^^^ prev) prevLz prevTz ++ bits))
include h

/-- A value that fits is read back, with its window, and the next value follows. -/
theorem readXor_eq (hwindow : prevLz + prevTz ≤ 63)
    (hfits : XorFits i (cur ^^^ prev) prevLz prevTz) : (readXor r prev prevLz prevTz).valBits = cur ∧
      ((readXor r prev prevLz prevTz).lz, (readXor r prev prevLz prevTz).tz) =
        nextWindow i (cur ^^^ prev) prevLz prevTz ∧ Rest (readXor r prev prevLz prevTz).reader bits := by
  have hback : ∀ xor, xor = cur ^^^ prev → prev ^^^ xor = cur := by
    rintro xor rfl
    exact xor_xor_cancel_comm_assoc prev cur
  rw [xorBits] at h
  split at h
  · next hxor =>
    obtain ⟨hbit, hrest⟩ := Rest.readZero h
    rw [readXor]
    simp only [hbit, if_true]
    refine ⟨?_, ?_, hrest⟩
    · rw [← hback 0 hxor.symm, UInt64.xor_zero]
    · rw [nextWindow, if_pos (Or.inl hxor)]
  · next hxor =>
    obtain ⟨hlz, -, hlt⟩ := leadingZeros_spec hxor
    obtain ⟨htz, -, hdvd⟩ := trailingZeros_spec hxor
    have hzeros := zeros_le hxor
    split at h
    · next hreuses =>
      obtain ⟨hbit₁, h⟩ := Rest.readOne h
      obtain ⟨hbit₂, h⟩ := Rest.readZero h
      obtain ⟨hv, hrest⟩ := Rest.readBits h
      rw [readXor]
      simp only [hbit₁, if_false, hbit₂, if_true, windowLength (by omega : prevLz + prevTz ≤ 64)]
      refine ⟨hback _ ?_, ?_, hrest⟩
      · refine shiftLeft_window hwindow (Nat.lt_of_lt_of_le hlt ?_) ?_ hv
        · exact Nat.pow_le_pow_right (by decide) (by have := hreuses.2.1; omega)
        · exact Nat.dvd_trans (pow_dvd_pow 2 hreuses.2.2) hdvd
      · rw [nextWindow, if_pos (Or.inr hreuses)]
    · next hreuses =>
      obtain ⟨hlow, hpart⟩ := (hfits.resolve_left hxor).resolve_left hreuses
      rw [cons_append, cons_append, append_assoc, append_assoc] at h
      obtain ⟨hbit₁, h⟩ := Rest.readOne h
      obtain ⟨hbit₂, h⟩ := Rest.readOne h
      obtain ⟨hlz', h⟩ := Rest.readBits h
      obtain ⟨hlen', h⟩ := Rest.readBits h
      -- both fields of the window are long enough
      rw [toNat_ofNat_of_lt (by omega), Nat.mod_eq_of_lt (show _ < 2 ^ 5 from hlow)] at hlz'
      rw [toNat_ofNat_of_lt (by omega), Nat.mod_eq_of_lt (by omega)] at hlen'
      rw [readXor]
      simp only [hbit₁, if_false, hbit₂, hlz', hlen']
      have htz' : subU32 (subU32 64 (leadingZeros (cur ^^^ prev)))
          (64 - leadingZeros (cur ^^^ prev) - trailingZeros (cur ^^^ prev)) = trailingZeros (cur ^^^ prev) := by
        rw [subU32_of_le (by omega : leadingZeros (cur ^^^ prev) ≤ 64) (by decide),
          subU32_of_le (by omega) (by omega)]
        omega
      obtain ⟨hv, hrest⟩ := Rest.readBits h
      rw [htz']
      refine ⟨hback _ (shiftLeft_window hzeros hlt hdvd hv), ?_, hrest⟩
      rw [nextWindow, if_neg (by rintro (h | h); exacts [hxor h, hreuses h])]

/-- A value that does not fit is read wrong. -/
theorem readXor_ne
    (hfits : ¬ XorFits i (cur ^^^ prev) prevLz prevTz) : (readXor r prev prevLz prevTz).valBits ≠ cur := by
  have hxor : ¬ cur ^^^ prev = 0 := fun hxor => hfits (Or.inl hxor)
  have hreuses : ¬ Reuses i (cur ^^^ prev) prevLz prevTz := fun hreuses => hfits (Or.inr (Or.inl hreuses))
  have hwide : ¬ (leadingZeros (cur ^^^ prev) < 32 ∧
      ¬ (leadingZeros (cur ^^^ prev) = 0 ∧ trailingZeros (cur ^^^ prev) = 0)) :=
    fun hwide => hfits (Or.inr (Or.inr hwide))
  have hback : ∀ xor, prev ^^^ xor = cur → xor = cur ^^^ prev := by
    rintro xor rfl
    rw [UInt64.xor_comm prev, UInt64.xor_assoc, UInt64.xor_self, UInt64.xor_zero]
  obtain ⟨hlz, -, -⟩ := leadingZeros_spec hxor
  obtain ⟨htz, hset, -⟩ := trailingZeros_spec hxor
  have hzeros := zeros_le hxor
  rw [xorBits, if_neg hxor, if_neg hreuses, cons_append, cons_append, append_assoc, append_assoc] at h
  obtain ⟨hbit₁, h⟩ := Rest.readOne h
  obtain ⟨hbit₂, h⟩ := Rest.readOne h
  obtain ⟨hlz', h⟩ := Rest.readBits h
  obtain ⟨hlen', h⟩ := Rest.readBits h
  rw [toNat_ofNat_of_lt (by omega)] at hlz' hlen'
  rw [readXor]
  simp only [hbit₁, if_false, hbit₂, hlz', hlen']
  intro heq
  have hval := hback _ heq
  by_cases hlow : leadingZeros (cur ^^^ prev) < 32
  · -- the whole word: its length reads as 0
    have hwhole : leadingZeros (cur ^^^ prev) = 0 ∧ trailingZeros (cur ^^^ prev) = 0 := by
      by_contra hpart
      exact hwide ⟨hlow, hpart⟩
    rw [hwhole.1, hwhole.2] at hval
    refine hxor (hval.symm.trans ?_)
    show (0 : UInt64) <<< _ = 0
    exact UInt64.zero_shiftLeft
  · -- 32 leading zeros and more: the word is read 32 bits higher
    have htz' : subU32 (subU32 64 (leadingZeros (cur ^^^ prev) % 2 ^ 5))
        ((64 - leadingZeros (cur ^^^ prev) - trailingZeros (cur ^^^ prev)) % 2 ^ 6) =
          trailingZeros (cur ^^^ prev) + 32 := by
      have hlz₅ : leadingZeros (cur ^^^ prev) % 2 ^ 5 = leadingZeros (cur ^^^ prev) - 32 := by omega
      rw [hlz₅, subU32_of_le (by omega : leadingZeros (cur ^^^ prev) - 32 ≤ 64) (by decide),
        subU32_of_le (by omega) (by omega)]
      omega
    rw [htz'] at hval
    have hbit := testBit_shiftLeft_ofNat
      (BitReader.readBits ((r.readBit.2.readBit.2.readBits 5).2.readBits 6).2
        ((64 - leadingZeros (cur ^^^ prev) - trailingZeros (cur ^^^ prev)) % 2 ^ 6)).1
      (n := trailingZeros (cur ^^^ prev) + 32) (j := trailingZeros (cur ^^^ prev)) (by omega) (by omega)
    rw [hval, hset] at hbit
    cases hbit

end

end ReadXor

theorem nextWindow_le {i : Nat} {xor : UInt64} {prevLz prevTz : Nat} (hwindow : prevLz + prevTz ≤ 63) :
    (nextWindow i xor prevLz prevTz).1 + (nextWindow i xor prevLz prevTz).2 ≤ 63 := by
  rw [nextWindow]
  split
  · exact hwindow
  · next h => exact zeros_le fun hxor => h (Or.inl hxor)

/-! ## Whole streams -/

/-- The bits of the timestamps, from a point on. -/
def tsBitsFrom : Nat → Int64 → Int64 → List DataPoint → List Bool
  | _, _, _, [] => []
  | i, prevTs, prevDelta, pt :: points =>
    dodBits (dodOf i prevTs prevDelta pt.timestamp) ++
      tsBitsFrom (i + 1) pt.timestamp (pt.timestamp - prevTs) points

/-- The bits of the values, from a point on. -/
def valBitsFrom (prevValBits : UInt64) : Nat → Nat → Nat → List DataPoint → List Bool
  | _, _, _, [] => []
  | i, prevLz, prevTz, pt :: points =>
    let xor := pt.value ^^^ prevValBits
    xorBits i xor prevLz prevTz ++
      valBitsFrom pt.value (i + 1) (nextWindow i xor prevLz prevTz).1 (nextWindow i xor prevLz prevTz).2 points

theorem writes_encodeFrom {e : Encoder} {tsBits valBits : List Bool} (hts : Writes e.tsWriter tsBits)
    (hval : Writes e.valWriter valBits) (hwindow : e.prevLz + e.prevTz ≤ 63) (i : Nat) (points : List DataPoint) :
    Writes (e.encodeFrom i points).tsWriter (tsBits ++ tsBitsFrom i e.prevTs e.prevDelta points) ∧
      Writes (e.encodeFrom i points).valWriter (valBits ++ valBitsFrom e.prevValBits i e.prevLz e.prevTz points) := by
  induction points generalizing e i tsBits valBits with
  | nil =>
    rw [tsBitsFrom, valBitsFrom, append_nil, append_nil]
    exact ⟨hts, hval⟩
  | cons pt points ih =>
    rw [tsBitsFrom, valBitsFrom, Encoder.encodeFrom, ← append_assoc, ← append_assoc]
    exact ih (writes_writeDod hts _) (writes_writeXor hval i _ hwindow) (nextWindow_le hwindow) (i + 1)

/-- The deltas of deltas fit, from a point on. -/
def DodsFitFrom : Nat → Int64 → Int64 → List DataPoint → Prop
  | _, _, _, [] => True
  | i, prevTs, prevDelta, pt :: points =>
    DodFits (dodOf i prevTs prevDelta pt.timestamp) ∧
      DodsFitFrom (i + 1) pt.timestamp (pt.timestamp - prevTs) points

theorem timestamp_eq_iff {i : Nat} {prevTs prevDelta ts dod : Int64} (hfirst : i = 1 → prevDelta = ts - prevTs) :
    prevTs + (prevDelta + dod) = ts ↔ dod = dodOf i prevTs prevDelta ts := by
  have hsub : prevTs + (prevDelta + dod) = ts ↔ dod = ts - prevTs - prevDelta := by
    rw [Int64.eq_sub_iff_add_eq, Int64.eq_sub_iff_add_eq, Int64.add_comm prevTs, Int64.add_comm prevDelta]
  rw [hsub, dodOf]
  split
  · next hi => rw [hfirst hi, Int64.sub_self]
  · rfl

/-- The loop gives back the points if and only if all of them fit. -/
theorem decodeFrom_eq_iff (points : List DataPoint) {d : Decoder} {i : Nat} (hi : 1 ≤ i)
    (hfirst : i = 1 → ∀ pt ∈ points.head?, d.prevDelta = pt.timestamp - d.prevTs)
    (hts : Rest d.tsReader (tsBitsFrom i d.prevTs d.prevDelta points))
    (hval : Rest d.valReader (valBitsFrom d.prevValBits i d.prevLz d.prevTz points))
    (hwindow : d.prevLz + d.prevTz ≤ 63) : Decoder.decodeFrom points.length d = points ↔
      DodsFitFrom i d.prevTs d.prevDelta points ∧ ValuesFitFrom d.prevValBits i d.prevLz d.prevTz points := by
  induction points generalizing d i with
  | nil => exact ⟨fun _ => ⟨trivial, trivial⟩, fun _ => rfl⟩
  | cons pt points ih =>
    rw [tsBitsFrom] at hts
    rw [valBitsFrom] at hval
    obtain ⟨hdod, hts'⟩ := readDod_spec hts
    have htimestamp := @timestamp_eq_iff i d.prevTs d.prevDelta pt.timestamp (readDod d.tsReader).1
      fun hone => hfirst hone pt rfl
    rw [hdod] at htimestamp
    rw [DodsFitFrom, ValuesFitFrom, length_cons, Decoder.decodeFrom]
    simp only [cons.injEq]
    by_cases hfitsTs : DodFits (dodOf i d.prevTs d.prevDelta pt.timestamp)
    · by_cases hfitsVal : XorFits i (pt.value ^^^ d.prevValBits) d.prevLz d.prevTz
      · -- the point is read back, and the loop goes on in step with the writer
        obtain ⟨hvalue, hnext, hval'⟩ := readXor_eq hval hwindow hfitsVal
        have hdelta : d.prevDelta + (readDod d.tsReader).1 = pt.timestamp - d.prevTs := by
          rw [Int64.eq_sub_iff_add_eq, Int64.add_comm]
          exact htimestamp.2 hfitsTs
        obtain ⟨hlz, htz⟩ := Prod.mk.inj hnext
        rw [htimestamp.2 hfitsTs, hdelta, hvalue, hlz, htz]
        have htail := @ih ⟨(readDod d.tsReader).2, (readXor d.valReader d.prevValBits d.prevLz d.prevTz).reader,
          pt.timestamp, pt.timestamp - d.prevTs, pt.value, (nextWindow i (pt.value ^^^ d.prevValBits) d.prevLz
          d.prevTz).1, (nextWindow i (pt.value ^^^ d.prevValBits) d.prevLz d.prevTz).2⟩ (i + 1) (Nat.le_succ_of_le hi)
          (fun hone => absurd hone (by omega)) hts' hval' (nextWindow_le hwindow)
        simp only [hfitsTs, hfitsVal, true_and]
        exact htail
      · -- the value is wrong
        refine ⟨fun h => absurd (congrArg DataPoint.value h.1) (readXor_ne hval hfitsVal), fun h => ?_⟩
        exact absurd h.2.1 hfitsVal
    · -- the timestamp is wrong
      refine ⟨fun h => ?_, fun h => absurd h.1.1 hfitsTs⟩
      exact absurd (htimestamp.1 (congrArg DataPoint.timestamp h.1)) hfitsTs

theorem dodsFitFrom_iff {i : Nat} (hi : 1 < i) (p q : DataPoint) (points : List DataPoint) :
    DodsFitFrom i q.timestamp (q.timestamp - p.timestamp) points ↔ TimestampsFit (p :: q :: points) := by
  induction points generalizing i p q with
  | nil => exact Iff.rfl
  | cons r points ih =>
    rw [DodsFitFrom, TimestampsFit, dodOf, if_neg (by omega), ih (Nat.lt_succ_of_lt hi) q r]

theorem dodsFitFrom_one_iff (first second : DataPoint) (points : List DataPoint) :
    DodsFitFrom 1 first.timestamp (second.timestamp - first.timestamp) (second :: points) ↔
      TimestampsFit (first :: second :: points) := by
  have hzero : DodFits (dodOf 1 first.timestamp (second.timestamp - first.timestamp) second.timestamp) := by
    rw [dodOf, if_pos rfl]
    decide
  rw [DodsFitFrom, dodsFitFrom_iff (by decide)]
  exact and_iff_right hzero

/-- **A chunk gives back its points if and only if every delta of deltas and every new window fits its field.** -/
theorem gorilla_round_trip_iff (first : DataPoint) (rest : List DataPoint) :
    (Chunk.compress gorilla first rest).decompress = first :: rest ↔
      TimestampsFit (first :: rest) ∧ ValuesFit (first :: rest) := by
  cases rest with
  | nil => exact ⟨fun _ => ⟨trivial, trivial⟩, fun _ => rfl⟩
  | cons second points =>
    have hwrites := @writes_encodeFrom
      ⟨.new, .new, first.timestamp, second.timestamp - first.timestamp, first.value, 0, 0⟩ [] []
      writes_new writes_new (Nat.zero_le _) 1 (second :: points)
    rw [nil_append, nil_append] at hwrites
    have hloop := @decodeFrom_eq_iff (second :: points)
      ⟨_, _, first.timestamp, second.timestamp - first.timestamp, first.value, 0, 0⟩ 1 (Nat.le_refl 1)
      (fun _ pt hpt => by cases hpt; rfl) hwrites.1.rest hwrites.2.rest
      (Nat.zero_le _)
    rw [dodsFitFrom_one_iff] at hloop
    rw [ValuesFit, ← hloop]
    have hcount : points.length + 1 + 1 - 1 = points.length + 1 := rfl
    rw [Chunk.decompress, Chunk.compress]
    simp only [length_cons, hcount, Nat.succ_ne_zero, if_false, Nat.add_eq_right, cons.injEq, true_and]
    exact Iff.rfl

/-- Seven bits do not hold a delta of deltas of 64: it is read back as -64. -/
theorem delta_of_64_lost :
    (Chunk.compress gorilla ⟨0, 0⟩ [⟨0, 0⟩, ⟨64, 0⟩]).decompress = [⟨0, 0⟩, ⟨0, 0⟩, ⟨-64, 0⟩] ∧
      (Chunk.compress gorilla ⟨0, 0⟩ [⟨0, 0⟩, ⟨64, 0⟩]).decompress ≠ [⟨0, 0⟩, ⟨0, 0⟩, ⟨64, 0⟩] := by
  decide

end SystemDesignLabs.Timeseries

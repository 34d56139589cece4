import SystemDesignLabs.Core.BitStream
import SystemDesignLabs.Core.Text
import SystemDesignLabs.ColumnarStorage.Store

/-!
# The encodings of a column

Bit-packing writes the low bits of each value, the most significant one first, one value right behind the other.
Run-length encoding merges a value into the run in front when the two are equal as values; a dictionary gives the same
code to values with the same key, and the key of a double is made of its bits.

So the two disagree about what is the same value. The two zeros are equal doubles with different bits: a run that
begins with one of them takes in the other and gives back the first for both (`encodings_lossless_iff`). A dictionary
keeps them apart (`decodeDict_encodeDict`). `none` stands for a panic, and for the `None` of `encode_dict`.
-/

namespace SystemDesignLabs.ColumnarStorage

open Core Value

/-! ### Bit-packing -/

/-- Set the bit at a position in the buffer: `output[byte_idx] |= bit << bit_within_byte`. -/
def orBit (output : List UInt8) (bitPos : Nat) (bit : UInt8) : Option (List UInt8) :=
  if bitPos / 8 < output.length then
    some (output.modify (bitPos / 8) (· ||| bit <<< UInt8.ofNat (7 - bitPos % 8)))
  else none

/-- The inner loop of `bitpack`: the low bits of a value. -/
def packBits (v : Int64) : Nat → List UInt8 → Nat → Option (List UInt8 × Nat)
  | 0, output, bitPos => some (output, bitPos)
  | bitIdx + 1, output, bitPos => do
    let bit := ((v >>> Int64.ofNat bitIdx) &&& 1).toUInt64.toUInt8
    let output ← orBit output bitPos bit
    packBits v bitIdx output (bitPos + 1)

/-- The outer loop of `bitpack`. -/
def packValues (bits : Nat) : List Int64 → List UInt8 → Nat → Option (List UInt8)
  | [], output, _ => some output
  | v :: values, output, bitPos => do
    let (output, bitPos) ← packBits v bits output bitPos
    packValues bits values output bitPos

/-- `bitpack`. The size of the buffer is computed in 64 bits. -/
def bitpack (values : List Int64) (bits : Nat) : Option (List UInt8) :=
  if 64 < bits then none
  else
    let totalBits := values.length * bits
    if 2 ^ 64 ≤ totalBits + 7 then none
    else packValues bits values (List.replicate ((totalBits + 7) / 8) 0) 0

/-- The inner loop of `bitunpack`. -/
def unpackBits (packed : List UInt8) : Nat → Int64 → Nat → Option (Int64 × Nat)
  | 0, val, bitPos => some (val, bitPos)
  | bitIdx + 1, val, bitPos =>
    match packed[bitPos / 8]? with
    | none => none
    | some byte =>
      -- a shift by the width of the number or more
      if 64 ≤ bitIdx then none
      else
        let bit := ((byte >>> UInt8.ofNat (7 - bitPos % 8)) &&& 1).toUInt64.toInt64
        unpackBits packed bitIdx (val ||| bit <<< Int64.ofNat bitIdx) (bitPos + 1)

/-- The outer loop of `bitunpack`. -/
def unpackValues (packed : List UInt8) (bits : Nat) : Nat → Nat → Option (List Int64)
  | 0, _ => some []
  | len + 1, bitPos => do
    let (val, bitPos) ← unpackBits packed bits 0 bitPos
    let result ← unpackValues packed bits len bitPos
    some (val :: result)

def bitunpack (packed : List UInt8) (bits len : Nat) : Option (List Int64) := unpackValues packed bits len 0

/-! ### Run-length encoding -/

structure RleColumn where
  runs : List (Value × Nat)
  totalRows : Nat
  deriving DecidableEq

/-- One value of `encode_rle`; the count of a run has 32 bits. -/
def pushRun (runs : List (Value × Nat)) (val : Value) : Option (List (Value × Nat)) :=
  match runs.getLast? with
  | some (lastVal, count) =>
    if lastVal.eq val then
      if count + 1 < 2 ^ 32 then some (runs.dropLast ++ [(lastVal, count + 1)]) else none
    else some (runs ++ [(val, 1)])
  | none => some (runs ++ [(val, 1)])

def encodeRle (col : ColumnData) : Option RleColumn :=
  (col.foldlM pushRun []).map fun runs => ⟨runs, col.length⟩

def decodeRle (rle : RleColumn) : ColumnData := rle.runs.flatMap fun (val, count) => List.replicate count val

/-! ### Dictionaries -/

structure DictColumn where
  dict : List Value
  codes : List UInt8
  deriving DecidableEq

def valueKey : Value → String
  | .int n => "i:" ++ n.toInt.repr
  | .float bits => "f:" ++ (bits.toNat : Int).repr
  | .str s => "s:" ++ s
  | .bool b => "b:" ++ if b then "true" else "false"
  | .null => "null"

/-- The loop of `encode_dict`. -/
def encodeValues : ColumnData → DictColumn → SortedMap String UInt8 → Option DictColumn
  | [], d, _ => some d
  | v :: vs, d, indexMap =>
    match indexMap.get (valueKey v) with
    | some existing => encodeValues vs { d with codes := d.codes ++ [existing] } indexMap
    | none =>
      if 256 ≤ d.dict.length then none
      else
        let code := UInt8.ofNat d.dict.length
        encodeValues vs ⟨d.dict ++ [v], d.codes ++ [code]⟩ (indexMap.insert (valueKey v) code)

/-- `encode_dict`. The ratio of the values in the dictionary to all values is below one half. -/
def encodeDict (col : ColumnData) : Option DictColumn :=
  (encodeValues col ⟨[], []⟩ .empty).bind fun d =>
    if max col.length 1 ≤ 2 * d.dict.length then none else some d

def decodeDict (d : DictColumn) : ColumnData := d.codes.map fun code => d.dict.getD code.toNat .null

/-! ### Bits of values -/

theorem toNat_smod_ofNat {k : Nat} (hk : k < 64) : ((Int64.ofNat k).toBitVec.smod 64).toNat = k := by
  have hall : ∀ k < 64, ((Int64.ofNat k).toBitVec.smod 64).toNat = k := by decide
  exact hall k hk

theorem testBit_toUInt64 (v : Int64) (j : Nat) : v.toUInt64.toNat.testBit j = v.toBitVec.getLsbD j := rfl

theorem getLsbD_one (j : Nat) : (1 : BitVec 64).getLsbD j = decide (j = 0) := by
  cases j with
  | zero => rfl
  | succ j =>
    show (1 : Nat).testBit (j + 1) = _
    rw [Nat.testBit_succ]
    exact Nat.zero_testBit j

theorem shiftRight_and_one (v : Int64) {k : Nat} (hk : k < 64) :
    ((v >>> Int64.ofNat k) &&& 1).toUInt64.toUInt8 = if v.toUInt64.toNat.testBit k then 1 else 0 := by
  have hbit : ((v >>> Int64.ofNat k) &&& 1).toBitVec = if v.toBitVec.getLsbD k then 1 else 0 := by
    apply BitVec.eq_of_getLsbD_eq
    intro j hj
    rw [Int64.toBitVec_and, BitVec.getLsbD_and, Int64.toBitVec_shiftRight, BitVec.getLsbD_sshiftRight',
      toNat_smod_ofNat hk]
    have hone : (1 : Int64).toBitVec.getLsbD j = decide (j = 0) := getLsbD_one j
    rw [hone]
    by_cases hj0 : j = 0
    · subst hj0
      rw [Nat.add_zero, if_pos hk, decide_eq_true rfl, Bool.and_true]
      cases v.toBitVec.getLsbD k <;> simp
    · rw [decide_eq_false hj0, Bool.and_false]
      split
      · rw [getLsbD_one, decide_eq_false hj0]
      · exact (BitVec.getLsbD_zero).symm
  rw [testBit_toUInt64]
  have hvalue : ((v >>> Int64.ofNat k) &&& 1) = if v.toBitVec.getLsbD k then 1 else 0 := by
    apply Int64.toBitVec_inj.1
    rw [hbit]
    split <;> rfl
  rw [hvalue]
  split <;> rfl

theorem getLsbD_or_shiftLeft (val : Int64) (b : Bool) {k : Nat} (hk : k < 64) (j : Nat) :
    (val ||| (if b then (1 : UInt64) else 0).toInt64 <<< Int64.ofNat k).toBitVec.getLsbD j =
      (val.toBitVec.getLsbD j || (decide (j = k) && b)) := by
  rw [Int64.toBitVec_or, BitVec.getLsbD_or, Int64.toBitVec_shiftLeft, BitVec.getLsbD_shiftLeft', toNat_smod_ofNat hk]
  congr 1
  cases b with
  | false =>
    show (_ && (0 : BitVec 64).getLsbD (j - k)) = _
    simp
  | true =>
    show (_ && (1 : BitVec 64).getLsbD (j - k)) = _
    rw [getLsbD_one]
    simp only [Bool.and_true, ← Bool.decide_and, ← decide_not]
    refine decide_eq_decide.2 ?_
    omega

/-! ### Packing and unpacking -/

/-- The buffer begins with the bits, and zeros follow. -/
def Begins (output : List UInt8) (written : List Bool) : Prop := ∀ i, bitAt output i = written.getD i false

section Packing

variable {output : List UInt8} {written : List Bool}

theorem begins_replicate (n : Nat) : Begins (List.replicate n 0) [] := by
  intro i
  rw [bitAt, List.getD_eq_getElem?_getD, List.getElem?_replicate]
  split <;> exact Nat.zero_testBit _

theorem Begins.orBit (h : Begins output written) (hin : written.length < 8 * output.length) (b : Bool) :
    ∃ output', orBit output written.length (if b then 1 else 0) = some output' ∧
      output'.length = output.length ∧ Begins output' (written ++ [b]) := by
  have hbyte : written.length / 8 < output.length := by omega
  refine ⟨_, if_pos hbyte, List.length_modify .., fun i => ?_⟩
  rw [getD_concat, ← h i]
  cases b with
  | true =>
    rw [Bool.and_true]
    exact bitAt_modify hbyte i
  | false =>
    have hsame : ∀ byte : UInt8, byte ||| 0 <<< UInt8.ofNat (7 - written.length % 8) = byte := by
      intro byte
      rw [UInt8.zero_shiftLeft, UInt8.or_zero]
    have hid : (fun byte : UInt8 => byte ||| 0 <<< UInt8.ofNat (7 - written.length % 8)) = id := funext hsame
    simp only [Bool.false_eq_true, if_false, hid, List.modify_id, Bool.and_false, Bool.or_false]

/-- The bits of a value are added at the end. -/
theorem Begins.packBits (h : Begins output written) (v : Int64) {n : Nat} (hn : n ≤ 64)
    (hin : written.length + n ≤ 8 * output.length) :
    ∃ output', packBits v n output written.length = some (output', written.length + n) ∧
      output'.length = output.length ∧ Begins output' (written ++ lowBits v.toUInt64 n) := by
  induction n generalizing output written with
  | zero =>
    refine ⟨output, rfl, rfl, ?_⟩
    rw [lowBits, List.append_nil]
    exact h
  | succ n ih =>
    obtain ⟨output₁, hor, hlen₁, h₁⟩ := h.orBit (by omega) (v.toUInt64.toNat.testBit n)
    have hpos : (written ++ [v.toUInt64.toNat.testBit n]).length = written.length + 1 := List.length_append
    obtain ⟨output₂, hrest, hlen₂, h₂⟩ := ih h₁ (by omega) (by rw [hpos, hlen₁]; omega)
    rw [hpos] at hrest
    refine ⟨output₂, ?_, hlen₂.trans hlen₁, ?_⟩
    · rw [ColumnarStorage.packBits, shiftRight_and_one v (by omega), hor]
      simp only [Option.bind_eq_bind, Option.bind_some, hrest]
      rw [Nat.add_assoc, Nat.add_comm 1 n]
    · rw [List.append_assoc, List.singleton_append] at h₂
      exact h₂

theorem length_flatMap_lowBits (values : List Int64) (n : Nat) :
    (values.flatMap fun v => lowBits v.toUInt64 n).length = values.length * n := by
  induction values with
  | nil => exact (Nat.zero_mul n).symm
  | cons v values ih =>
    rw [List.flatMap_cons, List.length_append, ih, length_lowBits, List.length_cons, Nat.succ_mul, Nat.add_comm]

/-- Packing writes the bits of all values. -/
theorem Begins.packValues (h : Begins output written) (values : List Int64) {n : Nat} (hn : n ≤ 64)
    (hin : written.length + values.length * n ≤ 8 * output.length) :
    ∃ output', packValues n values output written.length = some output' ∧ output'.length = output.length ∧
      Begins output' (written ++ values.flatMap fun v => lowBits v.toUInt64 n) := by
  induction values generalizing output written with
  | nil =>
    refine ⟨output, rfl, rfl, ?_⟩
    rw [List.flatMap_nil, List.append_nil]
    exact h
  | cons v values ih =>
    rw [List.length_cons, Nat.succ_mul] at hin
    obtain ⟨output₁, hfirst, hlen₁, h₁⟩ := h.packBits v hn (by omega)
    have hpos : (written ++ lowBits v.toUInt64 n).length = written.length + n := by
      rw [List.length_append, length_lowBits]
    obtain ⟨output₂, hrest, hlen₂, h₂⟩ := ih h₁ (by rw [hpos, hlen₁]; omega)
    rw [hpos] at hrest
    refine ⟨output₂, ?_, hlen₂.trans hlen₁, ?_⟩
    · rw [ColumnarStorage.packValues, hfirst]
      exact hrest
    · rw [List.append_assoc] at h₂
      exact h₂

end Packing

/-- The value fits into the bits: all values do where there are 64. -/
def Fits (bits : Nat) (v : Int64) : Prop := bits = 64 ∨ 0 ≤ v.toInt ∧ v.toInt < (2 ^ bits : Nat)

instance (bits : Nat) (v : Int64) : Decidable (Fits bits v) := inferInstanceAs (Decidable (_ ∨ _))

theorem Fits.getLsbD_eq_false {bits : Nat} {v : Int64} (h : Fits bits v) {j : Nat} (hj : bits ≤ j) :
    v.toBitVec.getLsbD j = false := by
  rcases h with rfl | ⟨hnonneg, hlt⟩
  · exact BitVec.getLsbD_of_ge _ _ hj
  · have hnat : (v.toBitVec.toNat : Int) = v.toInt := by
      have hint : v.toInt = v.toBitVec.toInt := rfl
      rw [hint, BitVec.toInt_eq_toNat_cond] at hnonneg ⊢
      have hlt' := v.toBitVec.isLt
      split
      · rfl
      · next hge =>
        rw [if_neg hge] at hnonneg
        omega
    have hsmall : v.toBitVec.toNat < 2 ^ bits := Int.ofNat_lt.1 (hnat ▸ hlt)
    exact Nat.testBit_lt_two_pow (Nat.lt_of_lt_of_le hsmall (Nat.pow_le_pow_right (by decide) hj))

section Unpacking

variable {packed : List UInt8} {bitPos max : Nat} {bits : List Bool}

/-- The bits of a value are read to their places. -/
theorem unpackBits_lowBits {v val : Int64} {n : Nat} (hn : n ≤ 64) (hmax : max ≤ 8 * packed.length)
    (h : Rest ⟨packed, bitPos, max⟩ (lowBits v.toUInt64 n ++ bits)) :
    ∃ val', unpackBits packed n val bitPos = some (val', bitPos + n) ∧ Rest ⟨packed, bitPos + n, max⟩ bits ∧
      ∀ j, val'.toBitVec.getLsbD j = (val.toBitVec.getLsbD j || (decide (j < n) && v.toBitVec.getLsbD j)) := by
  induction n generalizing val bitPos with
  | zero =>
    refine ⟨val, rfl, h, fun j => ?_⟩
    simp
  | succ n ih =>
    rw [lowBits, List.cons_append] at h
    obtain ⟨hbit, hrest⟩ := h.cons
    have hin := h.maxBits
    rw [List.length_cons] at hin
    have hbyte : bitPos / 8 < packed.length := by
      simp only at hin
      omega
    simp only at hbit hrest
    rw [bitAt, List.getD_eq_getElem?_getD, List.getElem?_eq_getElem hbyte, Option.getD_some] at hbit
    have hread := toNat_shiftRight_and_one packed[bitPos / 8] (k := 7 - bitPos % 8) (by omega)
    rw [hbit] at hread
    obtain ⟨val', hval, hrest', hbits⟩ := @ih (bitPos + 1) (val ||| (if v.toUInt64.toNat.testBit n then
      (1 : UInt64) else 0).toInt64 <<< Int64.ofNat n) (by omega) hrest
    have hsum : bitPos + 1 + n = bitPos + (n + 1) := by omega
    rw [hsum] at hval hrest'
    refine ⟨val', ?_, hrest', fun j => ?_⟩
    · rw [unpackBits, List.getElem?_eq_getElem hbyte]
      simp only
      rw [if_neg (by omega), hread]
      exact hval
    · rw [hbits, getLsbD_or_shiftLeft _ _ (by omega), testBit_toUInt64]
      -- the bit `n` is new
      by_cases hj : j = n
      · subst hj
        simp
      · have hiff : decide (j < n + 1) = decide (j < n) := decide_eq_decide.2 (by omega)
        rw [decide_eq_false hj, hiff, Bool.false_and, Bool.or_false]

/-- The values come back if they fit. -/
theorem unpackValues_flatMap {values : List Int64} {n : Nat} (hn : n ≤ 64) (hmax : max ≤ 8 * packed.length)
    (hfits : ∀ v ∈ values, Fits n v) (h : Rest ⟨packed, bitPos, max⟩ (values.flatMap fun v => lowBits v.toUInt64 n)) :
    unpackValues packed n values.length bitPos = some values := by
  induction values generalizing bitPos with
  | nil => rfl
  | cons v values ih =>
    obtain ⟨hv, hvalues⟩ := List.forall_mem_cons.1 hfits
    rw [List.flatMap_cons] at h
    obtain ⟨val, hval, hrest, hbits⟩ := @unpackBits_lowBits _ _ _ _ v 0 n hn hmax h
    have heq : val = v := by
      apply Int64.toBitVec_inj.1
      apply BitVec.eq_of_getLsbD_eq
      intro j hj
      have hzero : (0 : Int64).toBitVec.getLsbD j = false := BitVec.getLsbD_zero
      rw [hbits, hzero, Bool.false_or]
      by_cases hjn : j < n
      · rw [decide_eq_true hjn, Bool.true_and]
      · rw [hv.getLsbD_eq_false (by omega), Bool.and_false]
    subst heq
    rw [List.length_cons, unpackValues, hval]
    simp only [Option.bind_eq_bind, Option.bind_some, ih hvalues hrest]

end Unpacking

/-- Bit-packing loses nothing of values that fit, as long as the number of bits does not overflow. -/
theorem bitunpack_bitpack {values : List Int64} {bits : Nat} (hbits : bits ≤ 64) (hfits : ∀ v ∈ values, Fits bits v)
    (hsize : values.length * bits + 7 < 2 ^ 64) :
    ((bitpack values bits).bind fun packed => bitunpack packed bits values.length) = some values := by
  have hlen : (List.replicate ((values.length * bits + 7) / 8) (0 : UInt8)).length =
      (values.length * bits + 7) / 8 := List.length_replicate
  obtain ⟨packed, hpacked, hlength, hbegins⟩ := (begins_replicate ((values.length * bits + 7) / 8)).packValues values
    hbits (by rw [hlen, List.length_nil]; omega)
  rw [List.nil_append] at hbegins
  rw [bitpack, if_neg (by omega)]
  simp only
  rw [if_neg (by omega)]
  rw [List.length_nil] at hpacked
  rw [hpacked, Option.bind_some]
  -- the reader has all bits in front of it
  have hrest : Rest ⟨packed, 0, values.length * bits⟩ (values.flatMap fun v => lowBits v.toUInt64 bits) := by
    refine ⟨?_, fun i _ => ?_⟩
    · rw [length_flatMap_lowBits, Nat.zero_add]
    · rw [Nat.zero_add]
      exact hbegins i
  exact unpackValues_flatMap hbits (by rw [hlength, hlen]; omega) hfits hrest

/-! ### Runs -/

theorem eq_or_zero_of_f64Eq {a b : UInt64} (h : f64Eq a b = true) :
    a = b ∨ a.toNat % 2 ^ 63 = 0 ∧ b.toNat % 2 ^ 63 = 0 := by
  simp only [f64Eq, Bool.and_eq_true, decide_eq_true_eq] at h
  have hrank := h.2
  have ha := a.toNat_lt
  have hb := b.toNat_lt
  rw [f64Rank, f64Rank] at hrank
  rw [← UInt64.toNat_inj]
  split at hrank <;> split at hrank <;> omega

/-- The bits of `-0.0`. -/
def negZero : UInt64 := 0x8000000000000000

/-- One of the two is `0.0` and the other one `-0.0`. -/
def MixedZeros (a b : Value) : Prop := a = .float 0 ∧ b = .float negZero ∨ a = .float negZero ∧ b = .float 0

instance (a b : Value) : Decidable (MixedZeros a b) := inferInstanceAs (Decidable (_ ∨ _))

theorem zero_or_negZero {a : UInt64} (h : a.toNat % 2 ^ 63 = 0) : a = 0 ∨ a = negZero := by
  have ha := a.toNat_lt
  rw [← UInt64.toNat_inj, ← UInt64.toNat_inj]
  show a.toNat = 0 ∨ a.toNat = 9223372036854775808
  omega

/-- Different values are equal just when they are the two zeros. -/
theorem eq_and_ne_iff {a b : Value} : a.eq b = true ∧ a ≠ b ↔ MixedZeros a b := by
  constructor
  · rintro ⟨heq, hne⟩
    cases a with
    | float x =>
      cases b with
      | float y =>
        have hxy : x ≠ y := fun h => hne (congrArg float h)
        rcases eq_or_zero_of_f64Eq heq with h | ⟨hx, hy⟩
        · exact absurd h hxy
        · rcases zero_or_negZero hx with rfl | rfl
          · rcases zero_or_negZero hy with rfl | rfl
            · exact absurd rfl hxy
            · exact .inl ⟨rfl, rfl⟩
          · rcases zero_or_negZero hy with rfl | rfl
            · exact .inr ⟨rfl, rfl⟩
            · exact absurd rfl hxy
      | int _ | str _ | bool _ | null => exact nomatch heq
    | int x =>
      cases b with
      | int y => exact absurd (congrArg int (of_decide_eq_true heq)) hne
      | float _ | str _ | bool _ | null => exact nomatch heq
    | str x =>
      cases b with
      | str y => exact absurd (congrArg str (of_decide_eq_true heq)) hne
      | float _ | int _ | bool _ | null => exact nomatch heq
    | bool x =>
      cases b with
      | bool y => exact absurd (congrArg bool (of_decide_eq_true heq)) hne
      | float _ | int _ | str _ | null => exact nomatch heq
    | null =>
      cases b with
      | null => exact absurd rfl hne
      | float _ | int _ | str _ | bool _ => exact nomatch heq
  · rintro (⟨rfl, rfl⟩ | ⟨rfl, rfl⟩)
    · exact ⟨rfl, by decide⟩
    · exact ⟨rfl, by decide⟩

/-- What the runs give back for values behind a value: one that is equal to the value in front is taken for it. -/
def carry : Value → ColumnData → ColumnData
  | _, [] => []
  | last, v :: vs =>
    let v' := if last.eq v then last else v
    v' :: carry v' vs

/-- Nothing is changed just when the two zeros never stand side by side. -/
theorem carry_eq_self_iff {last : Value} {vs : ColumnData} :
    carry last vs = vs ↔ (last :: vs).IsChain fun a b => ¬ MixedZeros a b := by
  induction vs generalizing last with
  | nil => simp [carry]
  | cons v vs ih =>
    have hhead : (if last.eq v then last else v) = v ↔ ¬ MixedZeros last v := by
      rw [← eq_and_ne_iff]
      split
      · next heq =>
        simp [heq]
      · next hne =>
        simp [hne]
    rw [carry, List.isChain_cons_cons, List.cons.injEq, hhead]
    refine and_congr_right fun hmixed => ?_
    rw [hhead.2 hmixed]
    exact ih

/-- The rows of the runs. -/
def expand (runs : List (Value × Nat)) : ColumnData := runs.flatMap fun (val, count) => List.replicate count val

/-- What the runs give back, in front of which there are runs that end with a value. -/
theorem foldlM_pushRun {vs : ColumnData} {runs : List (Value × Nat)} {last : Value} {count : Nat}
    (hsize : (expand (runs ++ [(last, count)])).length + vs.length < 2 ^ 32) :
    ∃ runs', vs.foldlM pushRun (runs ++ [(last, count)]) = some runs' ∧
      expand runs' = expand (runs ++ [(last, count)]) ++ carry last vs := by
  induction vs generalizing runs last count with
  | nil => exact ⟨_, rfl, (List.append_nil _).symm⟩
  | cons v vs ih =>
    rw [List.length_cons] at hsize
    have hcount : count ≤ (expand (runs ++ [(last, count)])).length := by
      simp [expand]
    rw [List.foldlM_cons, pushRun, List.getLast?_concat]
    simp only
    by_cases heq : last.eq v
    · -- the run becomes longer
      have hexpand : expand (runs ++ [(last, count + 1)]) = expand (runs ++ [(last, count)]) ++ [last] := by
        simp [expand, List.replicate_succ']
      rw [if_pos heq, if_pos (by omega), List.dropLast_concat]
      obtain ⟨runs', hruns, hrows⟩ := @ih runs last (count + 1) (by
        rw [hexpand, List.length_append, List.length_singleton]
        omega)
      refine ⟨runs', hruns, ?_⟩
      rw [hrows, hexpand, carry, if_pos heq, List.append_assoc, List.singleton_append]
    · -- a new run begins
      have hexpand : expand (runs ++ [(last, count)] ++ [(v, 1)]) = expand (runs ++ [(last, count)]) ++ [v] := by
        simp [expand]
      rw [if_neg heq]
      obtain ⟨runs', hruns, hrows⟩ := @ih (runs ++ [(last, count)]) v 1 (by
        rw [hexpand, List.length_append, List.length_singleton]
        omega)
      refine ⟨runs', hruns, ?_⟩
      rw [hrows, hexpand, carry, if_neg heq, List.append_assoc, List.singleton_append]

/-- Run-length encoding loses nothing of a column just when the two zeros never stand side by side. -/
theorem decodeRle_encodeRle_iff {col : ColumnData} (hrows : col.length < 2 ^ 32) :
    (encodeRle col).map decodeRle = some col ↔ col.IsChain fun a b => ¬ MixedZeros a b := by
  cases col with
  | nil => exact ⟨fun _ => List.isChain_nil, fun _ => rfl⟩
  | cons v vs =>
    obtain ⟨runs, hruns, hexpand⟩ := @foldlM_pushRun vs [] v 1 (by
      rw [List.length_cons] at hrows
      show 1 + vs.length < 2 ^ 32
      omega)
    have hencode : (v :: vs).foldlM pushRun [] = some runs := hruns
    rw [encodeRle, hencode, Option.map_some, Option.map_some, Option.some_inj]
    show expand runs = _ ↔ _
    rw [hexpand, ← carry_eq_self_iff]
    show [v] ++ carry v vs = v :: vs ↔ _
    rw [List.singleton_append, List.cons.injEq]
    exact and_iff_right rfl

/-! ### Keys and codes -/

theorem toList_valueKey (v : Value) : (valueKey v).toList = match v with
    | .int n => 'i' :: ':' :: n.toInt.repr.toList
    | .float bits => 'f' :: ':' :: (bits.toNat : Int).repr.toList
    | .str s => 's' :: ':' :: s.toList
    | .bool b => 'b' :: ':' :: (if b then "true" else "false").toList
    | .null => "null".toList := by
  cases v with
  | null => rfl
  | int _ | float _ | str _ | bool _ =>
    rw [valueKey, String.toList_append]
    rfl

/-- The key of a value determines it, and the bits of a double. -/
theorem valueKey_injective {v w : Value} (h : valueKey v = valueKey w) : v = w := by
  have hlist := congrArg String.toList h
  rw [toList_valueKey, toList_valueKey] at hlist
  -- the first characters tell the kinds of values apart
  cases v with
  | int n =>
    cases w with
    | int m =>
      have hrepr := String.toList_inj.1 (List.cons.inj (List.cons.inj hlist).2).2
      exact congrArg int (Int64.toInt_inj.1 (repr_injective hrepr))
    | float _ | str _ | bool _ | null => exact absurd (List.cons.inj hlist).1 (by decide)
  | float a =>
    cases w with
    | float b =>
      have hrepr := String.toList_inj.1 (List.cons.inj (List.cons.inj hlist).2).2
      exact congrArg float (UInt64.toNat_inj.1 (Int.ofNat_inj.1 (repr_injective hrepr)))
    | int _ | str _ | bool _ | null => exact absurd (List.cons.inj hlist).1 (by decide)
  | str s =>
    cases w with
    | str t => exact congrArg str (String.toList_inj.1 (List.cons.inj (List.cons.inj hlist).2).2)
    | int _ | float _ | bool _ | null => exact absurd (List.cons.inj hlist).1 (by decide)
  | bool b =>
    cases w with
    | bool c =>
      have hname := (List.cons.inj (List.cons.inj hlist).2).2
      cases b <;> cases c <;> first | rfl | exact absurd hname (by decide)
    | int _ | float _ | str _ | null => exact absurd (List.cons.inj hlist).1 (by decide)
  | null =>
    cases w with
    | null => rfl
    | int _ | float _ | str _ | bool _ => exact absurd (List.cons.inj hlist).1 (by decide)

/-- The codes stand for the rows, and the map finds the code of a value by its key. -/
structure Coded (d : DictColumn) (indexMap : SortedMap String UInt8) (rows : ColumnData) : Prop where
  codes : d.codes.map (fun code => d.dict[code.toNat]?) = rows.map some
  index : ∀ key code, indexMap.get key = some code → ∃ v, d.dict[code.toNat]? = some v ∧ valueKey v = key

theorem coded_empty : Coded ⟨[], []⟩ .empty [] :=
  ⟨rfl, fun _ _ h => nomatch h⟩

section Coding

variable {d : DictColumn} {indexMap : SortedMap String UInt8} {rows : ColumnData} {v : Value} {code : UInt8}

section

variable (h : Coded d indexMap rows)
include h

theorem Coded.known (hget : indexMap.get (valueKey v) = some code) :
    Coded { d with codes := d.codes ++ [code] } indexMap (rows ++ [v]) := by
  obtain ⟨w, hw, hkey⟩ := h.index _ _ hget
  have hwv := valueKey_injective hkey
  subst hwv
  refine ⟨?_, h.index⟩
  rw [List.map_append, List.map_append, h.codes, List.map_singleton, List.map_singleton, hw]

theorem Coded.fresh (hsize : d.dict.length < 256) :
    Coded ⟨d.dict ++ [v], d.codes ++ [UInt8.ofNat d.dict.length]⟩
      (indexMap.insert (valueKey v) (UInt8.ofNat d.dict.length)) (rows ++ [v]) := by
  have hcode : (UInt8.ofNat d.dict.length).toNat = d.dict.length := by
    rw [UInt8.toNat_ofNat']
    exact Nat.mod_eq_of_lt hsize
  -- what is in the dictionary stays in its place
  have hkeep : ∀ (i : Nat) (w : Value), d.dict[i]? = some w → (d.dict ++ [v])[i]? = some w := by
    intro i w hw
    obtain ⟨hi, -⟩ := List.getElem?_eq_some_iff.1 hw
    rw [List.getElem?_append_left hi]
    exact hw
  have hnew : (d.dict ++ [v])[(UInt8.ofNat d.dict.length).toNat]? = some v := by
    rw [hcode]
    exact List.getElem?_concat_length
  refine ⟨?_, fun key code hget => ?_⟩
  · have hold : d.codes.map (fun code => (d.dict ++ [v])[code.toNat]?) = rows.map some := by
      rw [← h.codes]
      apply List.map_congr_left
      intro code hmem
      have hsome : d.dict[code.toNat]? ∈ rows.map some := h.codes ▸ List.mem_map.2 ⟨code, hmem, rfl⟩
      obtain ⟨w, -, hw⟩ := List.mem_map.1 hsome
      rw [← hw]
      exact hkeep _ _ hw.symm
    simp only [List.map_append, List.map_singleton, hold, hnew]
  · rw [SortedMap.get_insert] at hget
    split at hget
    · next hkey =>
      cases hget
      exact ⟨v, hnew, hkey.symm⟩
    · obtain ⟨w, hw, hwkey⟩ := h.index key code hget
      exact ⟨w, hkeep _ _ hw, hwkey⟩

/-- The codes stand for all rows at the end. -/
theorem Coded.encodeValues {vs : ColumnData} {d' : DictColumn}
    (hd : encodeValues vs d indexMap = some d') : ∃ indexMap', Coded d' indexMap' (rows ++ vs) := by
  induction vs generalizing d indexMap rows with
  | nil =>
    cases hd
    rw [List.append_nil]
    exact ⟨indexMap, h⟩
  | cons v vs ih =>
    have hrows : rows ++ v :: vs = rows ++ [v] ++ vs := by simp
    rw [hrows]
    rw [ColumnarStorage.encodeValues] at hd
    split at hd
    · next code hget => exact ih (h.known hget) hd
    · split at hd
      · exact nomatch hd
      · next hsize => exact ih (h.fresh (Nat.lt_of_not_le hsize)) hd

end

end Coding

/-- A dictionary loses nothing. -/
theorem decodeDict_encodeDict {col : ColumnData} {d : DictColumn} (h : encodeDict col = some d) :
    decodeDict d = col := by
  obtain ⟨d', hd', hratio⟩ := Option.bind_eq_some_iff.1 h
  have hd : d' = d := by
    split at hratio
    · exact nomatch hratio
    · exact Option.some.inj hratio
  subst hd
  obtain ⟨indexMap, hcoded⟩ := coded_empty.encodeValues hd'
  have hcodes := hcoded.codes
  rw [List.nil_append] at hcodes
  have hget : decodeDict d' = (d'.codes.map fun code => d'.dict[code.toNat]?).map (·.getD .null) := by
    rw [decodeDict, List.map_map]
    apply List.map_congr_left
    intro code _
    exact List.getD_eq_getElem?_getD
  rw [hget, hcodes, List.map_map]
  exact List.map_id col

/-! ### All encodings -/

/-- **The encodings are lossless just when the number of bits to pack does not overflow and the two zeros never stand
side by side in the column.** -/
theorem encodings_lossless_iff {values : List Int64} {bits : Nat} {col : ColumnData} (hbits : 1 ≤ bits ∧ bits ≤ 64)
    (hfits : ∀ v ∈ values, Fits bits v) (hrows : col.length < 2 ^ 32) :
    (((bitpack values bits).bind fun packed => bitunpack packed bits values.length) = some values ∧
        (encodeRle col).map decodeRle = some col ∧ ∀ d, encodeDict col = some d → decodeDict d = col) ↔
      values.length * bits + 7 < 2 ^ 64 ∧ col.IsChain fun a b => ¬ MixedZeros a b := by
  rw [decodeRle_encodeRle_iff hrows]
  constructor
  · rintro ⟨hpack, hzeros, -⟩
    refine ⟨Nat.lt_of_not_le fun hsize => ?_, hzeros⟩
    rw [bitpack, if_neg (by omega)] at hpack
    simp only at hpack
    rw [if_pos hsize] at hpack
    exact nomatch hpack
  · rintro ⟨hsize, hzeros⟩
    exact ⟨bitunpack_bitpack hbits.2 hfits hsize, hzeros, fun d hd => decodeDict_encodeDict hd⟩

/-- Three values of five bits, the second one across two bytes, and a column with a run. -/
theorem encodings_lossless_example :
    (((bitpack [1, 22, 31] 5).bind fun packed => bitunpack packed 5 3) = some [1, 22, 31] ∧
        (encodeRle [.int 4, .int 4, .null]).map decodeRle = some [.int 4, .int 4, .null] ∧
        ∀ d, encodeDict [.int 4, .int 4, .null] = some d → decodeDict d = [.int 4, .int 4, .null]) ↔
      3 * 5 + 7 < 2 ^ 64 ∧ List.IsChain (fun a b => ¬ MixedZeros a b) [.int 4, .int 4, .null] :=
  encodings_lossless_iff ⟨by decide, by decide⟩ (by simp [Fits]) (by simp)

/-- `-0.0` behind `0.0` comes back as `0.0`. -/
theorem decodeRle_merges_zeros :
    (encodeRle [.float 0, .float negZero]).map decodeRle = some [.float 0, .float 0] ∧
      (encodeRle [.float 0, .float negZero]).map decodeRle ≠ some [.float 0, .float negZero] := by
  have hdecoded : (encodeRle [.float 0, .float negZero]).map decodeRle = some [.float 0, .float 0] := rfl
  refine ⟨hdecoded, fun heq => ?_⟩
  rw [hdecoded] at heq
  exact absurd heq (by decide)

end SystemDesignLabs.ColumnarStorage

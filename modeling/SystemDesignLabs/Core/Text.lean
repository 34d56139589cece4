import Mathlib

/-!
# Lines and white space

`splitLines` cuts a byte string after each line feed, as a buffered reader does: the last line may lack its
line feed, and there is no line after a last line feed. `trim` removes white space at both ends of a text.
-/

namespace SystemDesignLabs.Core

open List

/-! ### Lines -/

/-- The lines of a byte string, without their line feeds. -/
def splitLines : List UInt8 → List (List UInt8)
  | [] => []
  | b :: bs =>
    if b = 10 then [] :: splitLines bs
    else match splitLines bs with
      | [] => [[b]]
      | line :: lines => (b :: line) :: lines

theorem splitLines_line {line : List UInt8} (h : 10 ∉ line) (rest : List UInt8) :
    splitLines (line ++ 10 :: rest) = line :: splitLines rest := by
  induction line with
  | nil => exact if_pos rfl
  | cons b line ih =>
    obtain ⟨hb, hline⟩ := not_or.1 (mem_cons.not.1 h)
    rw [cons_append, splitLines, if_neg (Ne.symm hb), ih hline]

theorem splitLines_last {line : List UInt8} (h : 10 ∉ line) : splitLines line = if line = [] then [] else [line] := by
  induction line with
  | nil => rfl
  | cons b line ih =>
    obtain ⟨hb, hline⟩ := not_or.1 (mem_cons.not.1 h)
    rw [splitLines, if_neg (Ne.symm hb), ih hline, if_neg (cons_ne_nil b line)]
    split
    · rename_i hlast
      split at hlast
      · rename_i hnil
        rw [hnil]
      · exact nomatch hlast
    · rename_i hlast
      split at hlast
      · exact nomatch hlast
      · cases hlast
        rfl

theorem splitLines_flatMap {lines : List (List UInt8)} (h : ∀ line ∈ lines, 10 ∉ line) (rest : List UInt8) :
    splitLines (lines.flatMap (· ++ [10]) ++ rest) = lines ++ splitLines rest := by
  induction lines with
  | nil => rfl
  | cons line lines ih =>
    obtain ⟨hline, hlines⟩ := forall_mem_cons.1 h
    rw [flatMap_cons, append_assoc, append_assoc, singleton_append, splitLines_line hline, ih hlines]
    rfl

/-! ### White space -/

/-- The characters with the property `White_Space`. -/
def isWhitespace (c : Char) : Bool :=
  let n := c.toNat
  9 ≤ n && n ≤ 13 || n = 0x20 || n = 0x85 || n = 0xA0 || n = 0x1680 || 0x2000 ≤ n && n ≤ 0x200A ||
    n = 0x2028 || n = 0x2029 || n = 0x202F || n = 0x205F || n = 0x3000

def trim (cs : List Char) : List Char := (cs.dropWhile isWhitespace).rdropWhile isWhitespace

section Trim

variable {c : Char} {cs : List Char}

section

variable (hc : isWhitespace c = false)
include hc

theorem trim_front : trim (c :: cs) <+: c :: cs := by
  rw [trim, dropWhile_cons_of_neg (by simp [hc])]
  exact rdropWhile_prefix _ _

theorem trim_ne_nil : trim (c :: cs) ≠ [] := by
  rw [trim, dropWhile_cons_of_neg (by simp [hc])]
  intro hnil
  have hall := rdropWhile_eq_nil_iff.1 hnil c mem_cons_self
  rw [hc] at hall
  exact nomatch hall

theorem trim_eq_self (hlast : isWhitespace ((c :: cs).getLast (by simp)) = false) :
    trim (c :: cs) = c :: cs := by
  rw [trim, dropWhile_cons_of_neg (by simp [hc])]
  exact rdropWhile_eq_self_iff.2 fun _ => by simp [hlast]

end

end Trim

/-!
## Texts made of parts and separators

A key or a name that is printed from several parts determines its parts if the last one cannot contain
the separator in front of it. The last part is often a number in decimal, whose digits determine it.
-/

universe u

/-- The part behind the last separator and the part in front of it are determined. -/
theorem eq_of_append_cons_eq {α : Type u} {sep : α} {front front' back back' : List α}
    (h : front ++ sep :: back = front' ++ sep :: back') (hback : sep ∉ back)
    (hback' : sep ∉ back') : front = front' ∧ back = back' := by
  induction front generalizing front' with
  | nil =>
    cases front' with
    | nil => exact ⟨rfl, (cons.inj h).2⟩
    | cons x front' =>
      have hmem : sep ∈ back := by
        rw [(cons.inj h).2]
        exact mem_append_right _ mem_cons_self
      exact absurd hmem hback
  | cons x front ih =>
    cases front' with
    | nil =>
      have hmem : sep ∈ back' := by
        rw [← (cons.inj h).2]
        exact mem_append_right _ mem_cons_self
      exact absurd hmem hback'
    | cons x' front' =>
      obtain ⟨hfront, hb⟩ := ih (cons.inj h).2
      exact ⟨by rw [(cons.inj h).1, hfront], hb⟩

theorem toDigits_injective {n m : Nat} (h : Nat.toDigits 10 n = Nat.toDigits 10 m) : n = m := by
  rw [← Nat.ofDigitChars_ten_toDigits (n := n), h, Nat.ofDigitChars_ten_toDigits]

theorem isDigit_of_mem_toDigits {n : Nat} {c : Char} (hc : c ∈ Nat.toDigits 10 n) : c.isDigit = true :=
  Nat.isDigit_of_mem_toDigits (by decide) (by decide) hc

theorem toNat_of_mem_toDigits {n : Nat} {c : Char} (hc : c ∈ Nat.toDigits 10 n) : 48 ≤ c.toNat ∧ c.toNat ≤ 57 := by
  have hdigit := isDigit_of_mem_toDigits hc
  simp only [Char.isDigit, Bool.and_eq_true, decide_eq_true_eq] at hdigit
  exact hdigit

theorem toList_repr (n : Int) : n.repr.toList = match n with
    | .ofNat m => Nat.toDigits 10 m
    | .negSucc m => '-' :: Nat.toDigits 10 (m + 1) := by
  cases n with
  | ofNat m => exact Nat.toList_repr
  | negSucc m =>
    show ("-" ++ Nat.repr (m + 1)).toList = _
    rw [String.toList_append, Nat.toList_repr]
    rfl

/-- The decimal of an integer determines it. -/
theorem repr_injective {m n : Int} (h : m.repr = n.repr) : m = n := by
  have hlist := congrArg String.toList h
  rw [toList_repr, toList_repr] at hlist
  -- a digit is not a sign
  have hsign : ∀ k l, Nat.toDigits 10 k ≠ '-' :: l := fun k l heq =>
    absurd (isDigit_of_mem_toDigits (heq ▸ mem_cons_self)) (by decide)
  cases m with
  | ofNat m =>
    cases n with
    | ofNat n => exact congrArg Int.ofNat (toDigits_injective hlist)
    | negSucc n => exact absurd hlist (hsign _ _)
  | negSucc m =>
    cases n with
    | ofNat n => exact absurd hlist.symm (hsign _ _)
    | negSucc n =>
      have hsucc := toDigits_injective (cons.inj hlist).2
      exact congrArg Int.negSucc (Nat.succ.inj hsucc)

end SystemDesignLabs.Core

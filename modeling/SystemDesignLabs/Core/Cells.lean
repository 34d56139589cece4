import Mathlib

/-!
# A growing list of cells

Objects that are created one after the other and addressed by their index: an object is added at the end
(`getElem?_push`), and a change of one object leaves the others alone (`getElem?_modify_cell`). `Updated` is
what both have in common: one cell has a new content.
-/

namespace SystemDesignLabs.Core

open List

universe u

variable {α : Type u} {l : List α} {a : α} {i k : Nat}

theorem getElem?_push (l : List α) (a : α) (i : Nat) : (l ++ [a])[i]? = if i = l.length then some a else l[i]? := by
  split
  · next h => rw [h, getElem?_concat_length]
  · next h =>
      rcases Nat.lt_or_gt_of_ne h with hlt | hgt
      · exact getElem?_append_left hlt
      · have hlen : (l ++ [a]).length ≤ i := by
          rw [length_append, length_singleton]
          exact hgt
        rw [getElem?_eq_none hlen, getElem?_eq_none (Nat.le_of_lt hgt)]

theorem getElem?_push_of_lt (h : i < l.length) : (l ++ [a])[i]? = l[i]? := by
  rw [getElem?_push, if_neg (Nat.ne_of_lt h)]

theorem getElem?_push_of_some {b : α} (h : l[i]? = some b) : (l ++ [a])[i]? = some b := by
  rw [getElem?_push_of_lt (List.getElem?_eq_some_iff.1 h).1, h]

theorem getElem?_modify_cell (l : List α) (k : Nat) (g : α → α) (i : Nat) :
    (l.modify k g)[i]? = if i = k then (l[i]?).map g else l[i]? := by
  rw [getElem?_modify]
  by_cases h : i = k
  · subst h
    simp only [if_true]
    rfl
  · rw [if_neg h]
    cases l[i]? <;> simp [Ne.symm h]

theorem getElem?_set_cell (l : List α) (k : Nat) (b : α) (i : Nat) :
    (l.set k b)[i]? = if i = k then (l[i]?).map fun _ => b else l[i]? := by
  by_cases h : i = k
  · subst h
    rw [if_pos rfl, getElem?_set_self']
    rfl
  · rw [if_neg h, getElem?_set_ne (Ne.symm h)]

/-- `l'` is `l` with `a` in cell `k`, which may be the first one behind the end. -/
def Updated (l : List α) (k : Nat) (a : α) (l' : List α) : Prop :=
  ∀ i, l'[i]? = if i = k then some a else l[i]?

theorem updated_push (l : List α) (a : α) : Updated l l.length a (l ++ [a]) :=
  getElem?_push l a

theorem updated_modify {b : α} (h : l[k]? = some b) (g : α → α) : Updated l k (g b) (l.modify k g) := by
  intro i
  rw [getElem?_modify_cell]
  split
  · next hi => rw [hi, h]; rfl
  · rfl

theorem updated_set {b : α} (h : l[k]? = some b) (a : α) : Updated l k a (l.set k a) := by
  intro i
  rw [getElem?_set_cell]
  split
  · next hi => rw [hi, h]; rfl
  · rfl

namespace Updated

variable {l' : List α} {b : α}

section

variable (h : Updated l k a l')
include h

theorem self : l'[k]? = some a := (h k).trans (if_pos rfl)

theorem other (hi : i ≠ k) : l'[i]? = l[i]? := (h i).trans (if_neg hi)

/-- A cell after the change is the changed one or another one as it was. -/
theorem cases (hi : l'[i]? = some b) : (i = k ∧ b = a) ∨ (i ≠ k ∧ l[i]? = some b) := by
  rw [h i] at hi
  split at hi
  · exact .inl ⟨‹i = k›, (Option.some_inj.1 hi).symm⟩
  · exact .inr ⟨‹i ≠ k›, hi⟩

theorem of_old (hi : l[i]? = some b) : i = k ∨ l'[i]? = some b := by
  by_cases hik : i = k
  · exact .inl hik
  · exact .inr ((h.other hik).trans hi)

end

end Updated

/-!
## Removal by swapping with the head

Removing an element from a list in constant time: the head takes its place. `SwapRemoved p l r` says what
is left of `l` after this was done with the first element that satisfies `p`. The elements are those of
`l` without the removed one (`map_perm_erase`), and only the former head has moved.
-/

universe v

variable {α : Type u} {K : Type v}

/-- `r` is `l` after its first element with `p` was replaced by the head, and the head dropped. -/
inductive SwapRemoved (p : α → Prop) : List α → List α → Prop
  | absent {l : List α} (hl : ∀ x ∈ l, ¬ p x) : SwapRemoved p l l
  | head {m : α} {t : List α} (hm : p m) : SwapRemoved p (m :: t) t
  | later {h m : α} {a b : List α} (hh : ¬ p h) (ha : ∀ x ∈ a, ¬ p x) (hm : p m) :
      SwapRemoved p (h :: (a ++ m :: b)) (a ++ h :: b)

theorem swapRemoved_set {p : α → Bool} {h : α} {t : List α} {i : Nat} (hi : (h :: t).findIdx? p = some i) :
    SwapRemoved (fun x => p x = true) (h :: t) (((h :: t).set i h).tail) := by
  obtain ⟨hlt, hpi, hbefore⟩ := findIdx?_eq_some_iff_getElem.1 hi
  cases i with
  | zero => exact .head hpi
  | succ i =>
    have hlt' : i < t.length := Nat.lt_of_succ_lt_succ hlt
    have hsplit : t = t.take i ++ t[i] :: t.drop (i + 1) := by
      rw [getElem_cons_drop, take_append_drop]
    have hset : (((h :: t).set (i + 1) h).tail) = t.take i ++ h :: t.drop (i + 1) := by
      rw [set_cons_succ, tail_cons, set_eq_take_append_cons_drop, if_pos hlt']
    rw [hset]
    have hlater : SwapRemoved (fun x => p x = true) (h :: (t.take i ++ t[i] :: t.drop (i + 1)))
        (t.take i ++ h :: t.drop (i + 1)) := by
      refine .later (hbefore 0 (Nat.succ_pos i)) ?_ hpi
      intro x hx
      obtain ⟨j, hj, rfl⟩ := mem_iff_getElem.1 hx
      have hji : j < i := by
        rw [length_take] at hj
        omega
      rw [getElem_take]
      exact hbefore (j + 1) (Nat.succ_lt_succ hji)
    rwa [← hsplit] at hlater

theorem SwapRemoved.subset {p : α → Prop} {l r : List α} (h : SwapRemoved p l r) : ∀ x ∈ r, x ∈ l := by
  cases h with
  | absent _ => exact fun _ hx => hx
  | head _ => exact fun _ hx => mem_cons_of_mem _ hx
  | later _ _ _ =>
    intro x hx
    rcases mem_append.1 hx with h | h
    · exact mem_cons_of_mem _ (mem_append_left _ h)
    · rcases mem_cons.1 h with rfl | h
      · exact mem_cons_self
      · exact mem_cons_of_mem _ (mem_append_right _ (mem_cons_of_mem _ h))

/-- One element goes and the others stay, up to their order. -/
theorem SwapRemoved.map_perm_erase [DecidableEq K] {f : α → K} {k : K} {l r : List α}
    (h : SwapRemoved (fun x => f x = k) l r) : (r.map f).Perm ((l.map f).erase k) := by
  cases h with
  | absent hl =>
    have hk : k ∉ l.map f := by
      intro hmem
      obtain ⟨x, hx, hfx⟩ := mem_map.1 hmem
      exact hl x hx hfx
    rw [erase_of_not_mem hk]
  | head hm =>
    rw [map_cons, hm, erase_cons_head]
  | @later h m a b hh ha hm =>
    have hk : k ∉ a.map f := by
      intro hmem
      obtain ⟨x, hx, hfx⟩ := mem_map.1 hmem
      exact ha x hx hfx
    rw [map_cons, erase_cons_tail (by simpa using hh), map_append, map_append,
      erase_append_right _ hk, map_cons, map_cons, hm, erase_cons_head]
    exact perm_middle

end SystemDesignLabs.Core

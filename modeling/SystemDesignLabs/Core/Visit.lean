import Mathlib

/-!
# Visiting a list in place

A loop that visits the elements of a list from the left, may change each of them, carries a state along,
and stops as soon as the state says so. `visit_map` is about the list: what no visit changes, the loop does
not change. `visit_rule` is about the state: an assertion on the elements visited so far and the state,
kept by each visit, holds at the end, where either all elements were visited or the state said stop.
-/

namespace SystemDesignLabs.Core

universe u v w

variable {α : Type u} {S : Type v} {β : Type w}

/-- Visit the elements while `more` holds. -/
def visit (more : S → Bool) (f : S → α → α × S) : List α → S → List α × S
  | [], s => ([], s)
  | a :: l, s =>
    if more s then
      let next := f s a
      let rest := visit more f l next.2
      (next.1 :: rest.1, rest.2)
    else (a :: l, s)

variable {more : S → Bool} {f : S → α → α × S}

theorem visit_map {g : α → β} (hf : ∀ s a, g (f s a).1 = g a) (l : List α) (s : S) :
    (visit more f l s).1.map g = l.map g := by
  induction l generalizing s with
  | nil => rfl
  | cons a l ih =>
    rw [visit]
    split
    · exact congrArg₂ List.cons (hf s a) (ih _)
    · rfl

/-- The rule for the state. `I` speaks about the elements visited so far and the state. -/
theorem visit_rule {I : List α → S → Prop} {l : List α}
    (hstep : ∀ done a rest s, l = done ++ a :: rest → more s = true → I done s → I (done ++ [a]) (f s a).2)
    (done rest : List α) (hl : l = done ++ rest) {s : S} (h0 : I done s) :
    I l (visit more f rest s).2 ∨ ∃ d, I d (visit more f rest s).2 ∧ more (visit more f rest s).2 = false := by
  induction rest generalizing done s with
  | nil =>
    rw [hl, List.append_nil]
    exact .inl h0
  | cons a rest ih =>
    rw [visit]
    cases hmore : more s with
    | true =>
      rw [if_pos rfl]
      exact ih (done ++ [a]) (by rw [hl, List.append_assoc]; rfl) (hstep done a rest s hl hmore h0)
    | false =>
      rw [if_neg Bool.false_ne_true]
      exact .inr ⟨done, h0, hmore⟩

theorem visit_invariant {I : S → Prop} {l : List α} (hstep : ∀ a ∈ l, ∀ s, I s → I (f s a).2) {s : S}
    (h0 : I s) : I (visit more f l s).2 := by
  have hvisit : ∀ done a rest s, l = done ++ a :: rest → more s = true → I s → I (f s a).2 := by
    intro done a rest s hl _ hs
    exact hstep a (hl ▸ List.mem_append_right _ List.mem_cons_self) s hs
  have hrule : I (visit more f l s).2 ∨
      ∃ d : List α, I (visit more f l s).2 ∧ more (visit more f l s).2 = false :=
    visit_rule (I := fun _ s => I s) hvisit [] l rfl h0
  rcases hrule with h | ⟨-, h, -⟩
  · exact h
  · exact h

end SystemDesignLabs.Core

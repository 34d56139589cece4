import Mathlib

/-!
# Splicing automata at an exit

An automaton is put together from pieces whose edges to an exit state are redirected. `Spliced` relates an
automaton before and after the edges of a piece `A` to the exit were redirected to `t`: the words that lead
from the piece to a state outside of it are those that lead to the exit before, followed by those that lead
on from `t` (`Spliced.pathLanguage_eq`). A state that chooses between the piece and the exit and is the
target of the piece is a loop (`Spliced.pathLanguage_loop`).
-/

namespace SystemDesignLabs.Core

open List Computability

universe u v

variable {α : Type u} {σ : Type v}

/-- The words that lead from one state to another. -/
def pathLanguage (M : εNFA α σ) (p q : σ) : Language α :=
  {w | ∃ x, x.reduceOption = w ∧ M.IsPath p q x}

theorem mem_pathLanguage {M : εNFA α σ} {p q : σ} {w : List α} :
    w ∈ pathLanguage M p q ↔ ∃ x, x.reduceOption = w ∧ M.IsPath p q x := Iff.rfl

section Paths

variable {M : εNFA α σ} {p q r : σ} {w : List α}

theorem pathLanguage_congr {M' : εNFA α σ} (h : M.step = M'.step) (p q : σ) :
    pathLanguage M p q = pathLanguage M' p q := by
  have hpath : ∀ {N N' : εNFA α σ}, N.step = N'.step → ∀ {p q : σ} {x : List (Option α)},
      N.IsPath p q x → N'.IsPath p q x := by
    intro N N' hstep p q x hx
    induction hx with
    | nil s => exact .nil s
    | cons t s u a x ht _ ih => exact .cons t s u a x (hstep ▸ ht) ih
  refine Language.ext fun w => ?_
  constructor
  · rintro ⟨x, rfl, hx⟩
    exact ⟨x, rfl, hpath h hx⟩
  · rintro ⟨x, rfl, hx⟩
    exact ⟨x, rfl, hpath h.symm hx⟩

theorem isPath_of_dead (hdead : ∀ a, M.step p a = ∅) {x : List (Option α)} (h : M.IsPath p q x) : q = p ∧ x = [] := by
  cases h with
  | nil _ => exact ⟨rfl, rfl⟩
  | cons t _ _ a x ht _ =>
    rw [hdead] at ht
    exact absurd ht (Set.notMem_empty t)

theorem pathLanguage_dead (hdead : ∀ a, M.step p a = ∅) : pathLanguage M p p = 1 := by
  refine Language.ext fun w => ?_
  rw [mem_pathLanguage, Language.mem_one]
  constructor
  · rintro ⟨x, rfl, hx⟩
    rw [(isPath_of_dead hdead hx).2]
    rfl
  · rintro rfl
    exact ⟨[], rfl, .nil p⟩

theorem mem_pathLanguage_of_ne (hne : p ≠ r) : w ∈ pathLanguage M p r ↔ (∃ q ∈ M.step p none, w ∈ pathLanguage M q r) ∨
      ∃ a w', w = a :: w' ∧ ∃ q ∈ M.step p (some a), w' ∈ pathLanguage M q r := by
  constructor
  · rintro ⟨x, rfl, hx⟩
    cases hx with
    | nil _ => exact absurd rfl hne
    | cons q _ _ a x hq hrest =>
      cases a with
      | none => exact .inl ⟨q, hq, x, rfl, hrest⟩
      | some a => exact .inr ⟨a, x.reduceOption, rfl, q, hq, x, rfl, hrest⟩
  · rintro (⟨q, hq, x, rfl, hx⟩ | ⟨a, _, rfl, q, hq, x, rfl, hx⟩)
    · exact ⟨none :: x, rfl, .cons q p r none x hq hx⟩
    · exact ⟨some a :: x, rfl, .cons q p r (some a) x hq hx⟩

/-- A state that chooses between two others. -/
theorem pathLanguage_choice {q₁ q₂ : σ} (hne : p ≠ r) (hnone : ∀ q, q ∈ M.step p none ↔ q = q₁ ∨ q = q₂)
    (hsome : ∀ a, M.step p (some a) = ∅) : pathLanguage M p r = pathLanguage M q₁ r + pathLanguage M q₂ r := by
  refine Language.ext fun w => ?_
  rw [mem_pathLanguage_of_ne hne, Language.mem_add]
  constructor
  · rintro (⟨q, hq, hw⟩ | ⟨a, -, -, q, hq, -⟩)
    · rcases (hnone q).1 hq with rfl | rfl
      · exact .inl hw
      · exact .inr hw
    · rw [hsome] at hq
      exact absurd hq (Set.notMem_empty q)
  · rintro (hw | hw)
    · exact .inl ⟨q₁, (hnone _).2 (.inl rfl), hw⟩
    · exact .inl ⟨q₂, (hnone _).2 (.inr rfl), hw⟩

/-- A state that reads one symbol. -/
theorem pathLanguage_symbol {matching : α → Prop} (hne : p ≠ r) (hdead : ∀ a, M.step r a = ∅)
    (hnone : M.step p none = ∅) (hsome : ∀ a q, q ∈ M.step p (some a) ↔ matching a ∧ q = r) :
    pathLanguage M p r = {w | ∃ a, matching a ∧ w = [a]} := by
  refine Language.ext fun w => ?_
  rw [mem_pathLanguage_of_ne hne, hnone]
  constructor
  · rintro (⟨q, hq, -⟩ | ⟨a, w', rfl, q, hq, hw'⟩)
    · exact absurd hq (Set.notMem_empty q)
    · obtain ⟨ha, rfl⟩ := (hsome a q).1 hq
      rw [pathLanguage_dead hdead, Language.mem_one] at hw'
      exact ⟨a, ha, by rw [hw']⟩
  · rintro ⟨a, ha, rfl⟩
    exact .inr ⟨a, [], rfl, r, (hsome a r).2 ⟨ha, rfl⟩, [], rfl, .nil r⟩

end Paths

/-- `M'` is `M` with the edges from the piece `A` to the exit redirected to `t`. -/
structure Spliced (M M' : εNFA α σ) (A : Set σ) (exit t : σ) : Prop where
  closed : ∀ p ∈ A, ∀ a, ∀ q ∈ M.step p a, q = exit ∨ q ∈ A
  exit_notMem : exit ∉ A
  dead : ∀ a, M.step exit a = ∅
  kept : ∀ p ∈ A, ∀ a, ∀ q ∈ M.step p a, q ≠ exit → q ∈ M'.step p a
  redirected : ∀ p ∈ A, ∀ a, exit ∈ M.step p a → t ∈ M'.step p a
  only : ∀ p ∈ A, ∀ a, ∀ q ∈ M'.step p a, (q ≠ exit ∧ q ∈ M.step p a) ∨ (q = t ∧ exit ∈ M.step p a)

namespace Spliced

variable {M M' : εNFA α σ} {A : Set σ} {exit t p r : σ} {x : List (Option α)}

section

variable (h : Spliced M M' A exit t)
include h

theorem join (hp : p ∈ A) (hx : M.IsPath p exit x) : M'.IsPath p t x := by
  induction x generalizing p with
  | nil =>
    have heq := hx.eq_of_nil
    exact absurd (heq ▸ hp) h.exit_notMem
  | cons a x ih =>
    cases hx with
    | cons q _ _ _ _ hq hrest =>
      by_cases hexit : q = exit
      · subst hexit
        obtain ⟨-, rfl⟩ := isPath_of_dead h.dead hrest
        exact .cons t p t a [] (h.redirected p hp a hq) (.nil t)
      · have hqA := (h.closed p hp a q hq).resolve_left hexit
        exact .cons q p t a x (h.kept p hp a q hq hexit) (ih hqA hrest)

theorem split (hp : p ∈ A) (hr : r ∉ A) (hx : M'.IsPath p r x) :
    ∃ y z, x = y ++ z ∧ z.length < x.length ∧ M.IsPath p exit y ∧ M'.IsPath t r z := by
  induction x generalizing p with
  | nil =>
    have heq := hx.eq_of_nil
    exact absurd (heq ▸ hp) hr
  | cons a x ih =>
    cases hx with
    | cons q _ _ _ _ hq hrest =>
      rcases h.only p hp a q hq with ⟨hexit, hq⟩ | ⟨rfl, hq⟩
      · have hqA := (h.closed p hp a q hq).resolve_left hexit
        obtain ⟨y, z, rfl, hlen, hy, hz⟩ := ih hqA hrest
        exact ⟨a :: y, z, rfl, Nat.lt_succ_of_lt hlen, .cons q p exit a y hq hy, hz⟩
      · exact ⟨[a], x, rfl, Nat.lt_succ_self _, εNFA.IsPath.singleton M hq, hrest⟩

/-- The words that lead out of a piece are those that led to its exit, followed by those that lead on. -/
theorem pathLanguage_eq (hp : p ∈ A) (hr : r ∉ A) :
    pathLanguage M' p r = pathLanguage M p exit * pathLanguage M' t r := by
  refine Language.ext fun w => ?_
  rw [Language.mem_mul]
  constructor
  · rintro ⟨x, rfl, hx⟩
    obtain ⟨y, z, rfl, -, hy, hz⟩ := h.split hp hr hx
    exact ⟨_, ⟨y, rfl, hy⟩, _, ⟨z, rfl, hz⟩, (reduceOption_append y z).symm⟩
  · rintro ⟨_, ⟨y, rfl, hy⟩, _, ⟨z, rfl, hz⟩, rfl⟩
    refine ⟨y ++ z, reduceOption_append y z, ?_⟩
    exact (M'.isPath_append).2 ⟨t, h.join hp hy, hz⟩

end

theorem pathLanguage_exit (h : Spliced M M' A exit exit) (hdead : ∀ a, M'.step exit a = ∅) (hp : p ∈ A) :
    pathLanguage M' p exit = pathLanguage M p exit := by
  rw [h.pathLanguage_eq hp h.exit_notMem, pathLanguage_dead hdead, mul_one]

/-- A loop: the target of the piece chooses between the piece and the exit. -/
theorem pathLanguage_loop (h : Spliced M M' A exit t) (hp : p ∈ A) (ht : t ≠ exit)
    (hdead : ∀ a, M'.step exit a = ∅) (hnone : ∀ q, q ∈ M'.step t none ↔ q = p ∨ q = exit)
    (hsome : ∀ a, M'.step t (some a) = ∅) : pathLanguage M' t exit = (pathLanguage M p exit)∗ := by
  have hunfold : pathLanguage M' t exit
      = pathLanguage M p exit * pathLanguage M' t exit + 1 := by
    conv_lhs => rw [pathLanguage_choice ht hnone hsome]
    rw [h.pathLanguage_eq hp h.exit_notMem, pathLanguage_dead hdead]
  apply le_antisymm
  · -- each time round the loop the path gets shorter
    have hpath : ∀ n, ∀ x, x.length ≤ n → M'.IsPath t exit x →
        x.reduceOption ∈ (pathLanguage M p exit)∗ := by
      intro n
      induction n with
      | zero =>
        intro x hx hpath
        rw [eq_nil_of_length_eq_zero (Nat.le_zero.1 hx)] at hpath
        exact absurd hpath.eq_of_nil ht
      | succ n ih =>
        intro x hx hpath
        cases hpath with
        | nil _ => exact absurd rfl ht
        | cons q _ _ a x hq hrest =>
          cases a with
          | some a =>
            rw [hsome] at hq
            exact absurd hq (Set.notMem_empty q)
          | none =>
            rw [reduceOption_cons_of_none]
            rcases (hnone q).1 hq with rfl | rfl
            · obtain ⟨y, z, rfl, hlen, hy, hz⟩ := h.split hp h.exit_notMem hrest
              rw [length_cons] at hx
              have hmore := ih z (by omega) hz
              rw [reduceOption_append]
              have hround : pathLanguage M q exit * (pathLanguage M q exit)∗
                  ≤ (pathLanguage M q exit)∗ := mul_kstar_le_kstar
              exact Set.mem_of_subset_of_mem hround (Language.append_mem_mul ⟨y, rfl, hy⟩ hmore)
            · rw [(isPath_of_dead hdead hrest).2]
              exact Language.nil_mem_kstar _
    rintro w ⟨x, rfl, hx⟩
    exact hpath x.length x (le_refl _) hx
  · have hstep : pathLanguage M p exit * pathLanguage M' t exit ≤ pathLanguage M' t exit := by
      conv_rhs => rw [hunfold]
      exact le_self_add
    have hone : (1 : Language α) ≤ pathLanguage M' t exit := by
      conv_rhs => rw [hunfold]
      exact le_add_self
    calc (pathLanguage M p exit)∗ = (pathLanguage M p exit)∗ * 1 := (mul_one _).symm
      _ ≤ (pathLanguage M p exit)∗ * pathLanguage M' t exit := by gcongr
      _ ≤ pathLanguage M' t exit := kstar_mul_le_self hstep

end Spliced

/-!
## Replacing pairs of neighbours

`replacePairs a b c` scans a list from the left and writes `c` for each pair of neighbours `a`, `b`; what
it has written is not looked at again, so overlapping pairs are taken from the left. Whatever meaning `c`
shares with the sequence `a`, `b` is kept by the replacement (`flatMap_replacePairs`) and so by any number
of them (`flatMap_replaceAll`).
-/

variable {α : Type u} {β : Type v} [DecidableEq α]

/-- Write `c` for each `a`, `b`. -/
def replacePairs (a b c : α) : List α → List α
  | x :: y :: l =>
    if x = a ∧ y = b then c :: replacePairs a b c l else x :: replacePairs a b c (y :: l)
  | l => l

/-- What the new element means is what the pair means, so the list means the same. -/
theorem flatMap_replacePairs {f : α → List β} {a b c : α} (h : f c = f a ++ f b) (l : List α) :
    (replacePairs a b c l).flatMap f = l.flatMap f := by
  induction l using replacePairs.induct a b with
  | case1 x y l hpair ih =>
    obtain ⟨rfl, rfl⟩ := hpair
    rw [replacePairs, if_pos ⟨rfl, rfl⟩, flatMap_cons, ih, h, flatMap_cons, flatMap_cons, append_assoc]
  | case2 x y l hpair ih => rw [replacePairs, if_neg hpair, flatMap_cons, ih, ← flatMap_cons]
  | case3 l hshort => rw [replacePairs.eq_def]; split <;> simp_all

theorem mem_replacePairs {a b c t : α} {l : List α} (h : t ∈ replacePairs a b c l) : t = c ∨ t ∈ l := by
  induction l using replacePairs.induct a b with
  | case1 x y l hpair ih =>
    rw [replacePairs, if_pos hpair] at h
    rcases mem_cons.1 h with h | h
    · exact .inl h
    · exact (ih h).imp_right fun h => mem_cons_of_mem x (mem_cons_of_mem y h)
  | case2 x y l hpair ih =>
    rw [replacePairs, if_neg hpair] at h
    rcases mem_cons.1 h with rfl | h
    · exact .inr mem_cons_self
    · exact (ih h).imp_right (mem_cons_of_mem x)
  | case3 l hshort =>
    rw [replacePairs.eq_def] at h
    split at h
    · exact absurd rfl (hshort _ _ _)
    · exact .inr h

theorem head?_replacePairs {a b c y : α} {l : List α} (h : y ∈ (replacePairs a b c l).head?) :
    y = c ∨ y ∈ l.head? := by
  rw [replacePairs.eq_def] at h
  split at h
  · split at h
    · exact .inl (Option.some.inj h).symm
    · exact .inr h
  · exact .inr h

/-- Only the new element gets new neighbours. -/
theorem isChain_replacePairs {R : α → α → Prop} {a b c : α} (hnext : ∀ x, R c x) (hprev : ∀ x, R x c) {l : List α}
    (h : l.IsChain fun x y => x = a ∧ y = b ∨ R x y) : (replacePairs a b c l).IsChain R := by
  induction l using replacePairs.induct a b with
  | case1 x y l hpair ih =>
    rw [replacePairs, if_pos hpair]
    exact isChain_cons.2 ⟨fun z _ => hnext z, ih h.tail.tail⟩
  | case2 x y l hpair ih =>
    rw [replacePairs, if_neg hpair]
    refine isChain_cons.2 ⟨fun z hz => ?_, ih h.tail⟩
    rcases head?_replacePairs hz with rfl | hz
    · exact hprev x
    · cases hz
      exact (isChain_cons_cons.1 h).1.resolve_left hpair
  | case3 l hshort =>
    rcases l with _ | ⟨x, _ | ⟨y, l⟩⟩
    · exact .nil
    · exact .singleton x
    · exact absurd rfl (hshort x y l)

end SystemDesignLabs.Core

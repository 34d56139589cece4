import Mathlib

/-!
# Partial step functions, runs and invariants

A labelled transition system is a partial function `step : S → A → Option S`: the label picks one
atomic step, `none` means that the step is not enabled. `exec` runs a list of labels. `ReachableIf`
is the set of states reached by runs all of whose steps meet a side condition `ok` on the state
before the step and the label; `Reachable` has no side condition. The side condition is what a
result of the form "in every run whose steps all meet `ok`" quantifies over.

The rules a proof uses are `ReachableIf.invariant` (an invariant carried by single steps holds in
every reached state), `ReachableIf.ghost` (the same with history data that each step extends) and
`reachable_of_exec` (a concrete run reaches its final state).
-/

namespace SystemDesignLabs.Core

open Option

universe u v w

variable {S : Type u} {A : Type v}

/-- Run a list of labels; the run stops with `none` at the first step that is not enabled. -/
def exec (step : S → A → Option S) : S → List A → Option S
  | s, [] => some s
  | s, a :: as => (step s a).bind fun s' => exec step s' as

/-- The states reached from `init` by steps that all meet `ok`. -/
inductive ReachableIf (step : S → A → Option S) (ok : S → A → Prop) (init : S) : S → Prop
  | init : ReachableIf step ok init init
  | step {s s' : S} (a : A) : ReachableIf step ok init s → ok s a → step s a = some s' →
      ReachableIf step ok init s'

/-- The states reached by any run. -/
abbrev Reachable (step : S → A → Option S) (init : S) : S → Prop :=
  ReachableIf step (fun _ _ => True) init

/-- Run a list of labels, checking the side condition at every step. -/
def execIf (step : S → A → Option S) (ok : S → A → Bool) : S → List A → Option S
  | s, [] => some s
  | s, a :: as => if ok s a then (step s a).bind fun s' => execIf step ok s' as else none

section Rules

variable {step : S → A → Option S} {ok : S → A → Prop} {init : S}

/-- An invariant carried by single steps holds in every reached state. The step case may use
that the state before the step was reached. -/
theorem ReachableIf.invariant {I : S → Prop} (h0 : I init)
    (hstep : ∀ s a s', ReachableIf step ok init s → I s → ok s a → step s a = some s' → I s')
    {s : S} (h : ReachableIf step ok init s) : I s := by
  induction h with
  | init => exact h0
  | step a hr hok hs ih => exact hstep _ a _ hr ih hok hs

/-- The same with history data. `next` extends the history at each step; the invariant speaks
about the state and the history, and holds of every reached state for some history. -/
theorem ReachableIf.ghost {H : Type w} {I : S → H → Prop} (next : H → S → S → H) {h0 : H} (hinit : I init h0)
    (hstep : ∀ s a s' h, I s h → ok s a → step s a = some s' → I s' (next h s s'))
    {s : S} (h : ReachableIf step ok init s) : ∃ h, I s h := by
  induction h with
  | init => exact ⟨h0, hinit⟩
  | step a _ hok hs ih =>
    obtain ⟨h, hh⟩ := ih
    exact ⟨next h _ _, hstep _ a _ h hh hok hs⟩

theorem ReachableIf.mono {ok' : S → A → Prop} (himp : ∀ s a, ok s a → ok' s a) {s : S}
    (h : ReachableIf step ok init s) : ReachableIf step ok' init s := by
  induction h with
  | init => exact .init
  | step a _ hok hs ih => exact .step a ih (himp _ _ hok) hs

variable {as : List A} {s s' : S}

theorem ReachableIf.exec_of_forall (h : ReachableIf step ok init s) (hok : ∀ a ∈ as, ∀ t, ok t a)
    (hs : exec step s as = some s') : ReachableIf step ok init s' := by
  induction as generalizing s with
  | nil =>
    simp only [Core.exec, some.injEq] at hs
    exact hs ▸ h
  | cons a as ih =>
    simp only [Core.exec, bind_eq_some_iff] at hs
    obtain ⟨t, ht, hs⟩ := hs
    obtain ⟨ha, has⟩ := List.forall_mem_cons.1 hok
    exact ih (.step a h (ha s) ht) has hs

theorem Reachable.exec (h : Reachable step init s) (hs : exec step s as = some s') : Reachable step init s' :=
  h.exec_of_forall (fun _ _ _ => trivial) hs

theorem reachable_of_exec (hs : exec step init as = some s) : Reachable step init s :=
  Reachable.exec .init hs

theorem ReachableIf.execIf {okb : S → A → Bool} (hok : ∀ s a, okb s a = true → ok s a)
    (h : ReachableIf step ok init s) (hs : execIf step okb s as = some s') : ReachableIf step ok init s' := by
  induction as generalizing s with
  | nil =>
    simp only [Core.execIf, some.injEq] at hs
    exact hs ▸ h
  | cons a as ih =>
    simp only [Core.execIf] at hs
    split at hs
    · rename_i hc
      simp only [bind_eq_some_iff] at hs
      obtain ⟨t, ht, hs⟩ := hs
      exact ih (.step a h (hok s a hc) ht) hs
    · exact absurd hs (by simp)

theorem execIf_exec {okb : S → A → Bool} (hs : execIf step okb s as = some s') : Core.exec step s as = some s' := by
  induction as generalizing s with
  | nil => exact hs
  | cons a as ih =>
    simp only [Core.execIf] at hs
    split at hs
    · obtain ⟨t, ht, hs⟩ := bind_eq_some_iff.1 hs
      exact bind_eq_some_iff.2 ⟨t, ht, ih hs⟩
    · exact absurd hs (by simp)

end Rules

/-!
## Two runs in lockstep

The relational rule for properties of two runs: if related states step to related states on related
inputs, then runs on pairwise related inputs end in related states (`foldl_lockstep`). `Along` states
a side condition at every step of the first run.

The states such relations speak about are often tables whose slots are related one by one. The second
half lifts a relation on slots to tables, `List.Forall₂`, through updates of one slot, maps over all
slots and searches.
-/

open List

universe x

/-! ### Runs -/

section Runs

variable {S : Type u} {S' : Type v} {A : Type w} {A' : Type x}

/-- The side condition holds at every step of the run. -/
def Along (f : S → A → S) (ok : S → A → Prop) : S → List A → Prop
  | _, [] => True
  | s, a :: as => ok s a ∧ Along f ok (f s a) as

instance Along.decidable {f : S → A → S} {ok : S → A → Prop} [∀ s a, Decidable (ok s a)] :
    ∀ (s : S) (as : List A), Decidable (Along f ok s as)
  | _, [] => instDecidableTrue
  | s, a :: as =>
    @instDecidableAnd (ok s a) (Along f ok (f s a) as) _ (Along.decidable (f s a) as)

/-- Runs on related inputs keep their states related. -/
theorem foldl_lockstep {f : S → A → S} {f' : S' → A' → S'} {R : S → S' → Prop} {In : A → A' → Prop} {ok : S → A → Prop}
    (hstep : ∀ s s' a a', R s s' → In a a' → ok s a → R (f s a) (f' s' a'))
    {as : List A} {as' : List A'} (has : List.Forall₂ In as as') {s : S} {s' : S'} (hs : R s s')
    (hok : Along f ok s as) : R (as.foldl f s) (as'.foldl f' s') := by
  induction has generalizing s s' with
  | nil => exact hs
  | cons ha _ ih => exact ih (hstep _ _ _ _ hs ha hok.1) hok.2

end Runs

/-! ### Tables -/

section Tables

variable {α : Type u} {β : Type v} {γ : Type w} {δ : Type x} {R : α → β → Prop}
  {l : List α} {l' : List β}

section

variable (h : List.Forall₂ R l l')
include h

theorem forall₂_set {a : α} {b : β} (hab : R a b) (i : Nat) :
    List.Forall₂ R (l.set i a) (l'.set i b) := by
  induction h generalizing i with
  | nil => exact .nil
  | cons hc hl ih =>
    cases i with
    | zero => exact .cons hab hl
    | succ i => exact .cons hc (ih i)

theorem forall₂_mapIdx {T : γ → δ → Prop} {f : Nat → α → γ}
    {f' : Nat → β → δ} (hf : ∀ i a b, R a b → T (f i a) (f' i b)) : List.Forall₂ T (l.mapIdx f) (l'.mapIdx f') := by
  induction h generalizing f f' with
  | nil => exact .nil
  | cons hc _ ih =>
    rw [mapIdx_cons, mapIdx_cons]
    exact .cons (hf 0 _ _ hc) (ih fun i a b => hf (i + 1) a b)

theorem forall₂_findIdx? {p : α → Bool} {q : β → Bool}
    (hpq : ∀ a b, R a b → p a = q b) : l.findIdx? p = l'.findIdx? q := by
  induction h with
  | nil => rfl
  | cons hc _ ih => rw [findIdx?_cons, findIdx?_cons, hpq _ _ hc, ih]

theorem forall₂_getElem? (i : Nat) : Option.Rel R l[i]? l'[i]? := by
  induction h generalizing i with
  | nil => exact .none
  | cons hc _ ih =>
    cases i with
    | zero => exact .some hc
    | succ i => simpa only [getElem?_cons_succ] using ih i

end

end Tables

end SystemDesignLabs.Core

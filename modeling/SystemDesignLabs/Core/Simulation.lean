import Mathlib

/-!
# Simulation of deterministic machines

A machine goes on from a state to another, or stops with an outcome. A second machine simulates a first one when each
step of the first is matched by one or more steps of the second, and when the second stops in the same way as the
first; it may also fail where the first does not. As both machines are deterministic, a simulation in one direction
gives both: what the first machine does, the second one does (`Simulates.forward`), and where the second one stops
without having failed, the first one stops, too (`Simulates.backward`).
-/

namespace SystemDesignLabs.Core

universe u v

/-- A machine: a state is followed by another, or the machine stops with an outcome. -/
abbrev Machine (σ : Type u) (ο : Type v) := σ → σ ⊕ ο

namespace Machine

variable {σ : Type u} {ο : Type v} {m : Machine σ ο} {s s' last last' : σ} {o o' : ο} {n n' : Nat}

/-- The machine goes on. -/
def Goes (m : Machine σ ο) (s s' : σ) : Prop := m s = .inl s'

/-- The states that the machine comes to. -/
abbrev Reaches (m : Machine σ ο) : σ → σ → Prop := Relation.ReflTransGen m.Goes

/-- The machine stops after a number of steps, in a last state and with an outcome. -/
inductive Ends (m : Machine σ ο) : Nat → σ → σ → ο → Prop
  | stop {s : σ} {o : ο} : m s = .inr o → Ends m 0 s s o
  | next {n : Nat} {s s' last : σ} {o : ο} : m s = .inl s' → Ends m n s' last o → Ends m (n + 1) s last o

/-- A machine stops in one way. -/
theorem Ends.unique (h : m.Ends n s last o) (h' : m.Ends n' s last' o') : last = last' ∧ o = o' := by
  induction h generalizing n' with
  | stop hs =>
    cases h' with
    | stop hs' => exact ⟨rfl, Sum.inr.inj (hs.symm.trans hs')⟩
    | next hs' _ => exact nomatch hs.symm.trans hs'
  | next hs _ ih =>
    cases h' with
    | stop hs' => exact nomatch hs.symm.trans hs'
    | next hs' hrest =>
      cases Sum.inl.inj (hs.symm.trans hs')
      exact ih hrest

theorem Ends.prepend (hgoes : Relation.TransGen m.Goes s s') (h : m.Ends n s' last o) : ∃ k, m.Ends k s last o := by
  induction hgoes generalizing n with
  | single hs => exact ⟨n + 1, .next hs h⟩
  | tail _ hs ih => exact ih (.next hs h)

theorem Ends.after (hgoes : Relation.TransGen m.Goes s s') (h : m.Ends n s last o) : ∃ k < n, m.Ends k s' last o := by
  have hstep : ∀ {n s s'}, m.Goes s s' → m.Ends n s last o → ∃ k < n, m.Ends k s' last o := by
    intro n s s' hs h
    cases h with
    | stop hs' => exact nomatch hs.symm.trans hs'
    | @next k _ _ _ _ hs' hrest =>
      cases Sum.inl.inj (hs.symm.trans hs')
      exact ⟨k, Nat.lt_succ_self k, hrest⟩
  induction hgoes with
  | single hs => exact hstep hs h
  | tail _ hs ih =>
    obtain ⟨k, hk, hrest⟩ := ih
    obtain ⟨l, hl, hrest'⟩ := hstep hs hrest
    exact ⟨l, Nat.lt_trans hl hk, hrest'⟩

end Machine

universe u' v'

variable {σ : Type u} {ο : Type v} {τ : Type u'} {π : Type v'}

/-- The second machine does what the first one does, as far as the states are good, or it fails. `same` compares the
outcomes and may look at the state in which the first machine stops, `fails` at that in which the second one does. -/
structure Simulates (m : Machine σ ο) (m' : Machine τ π) (good : σ → Prop) (R : σ → τ → Prop)
    (same : σ → ο → π → Prop) (fails : τ → π → Prop) : Prop where
  goes : ∀ {s t s'}, R s t → good s → m s = .inl s' →
    (∃ t', Relation.TransGen m'.Goes t t' ∧ R s' t') ∨ ∃ n last p, m'.Ends n t last p ∧ fails last p
  stops : ∀ {s t o}, R s t → good s → m s = .inr o →
    ∃ n last p, m'.Ends n t last p ∧ (same s o p ∨ fails last p)

namespace Simulates

variable {m : Machine σ ο} {m' : Machine τ π} {good : σ → Prop} {R : σ → τ → Prop} {same : σ → ο → π → Prop}
  {fails : τ → π → Prop} {s last : σ} {t last' : τ} {o : ο} {p : π} {n : Nat}

/-- Where the first machine stops, the second one stops in the same way or fails. -/
theorem forward (h : Simulates m m' good R same fails) (hR : R s t) (hgood : ∀ s', m.Reaches s s' → good s')
    (hends : m.Ends n s last o) : ∃ k last' p, m'.Ends k t last' p ∧ (same last o p ∨ fails last' p) := by
  induction hends generalizing t with
  | stop hs =>
    exact h.stops hR (hgood _ .refl) hs
  | next hs _ ih =>
    rcases h.goes hR (hgood _ .refl) hs with ⟨t', hgoes, hR'⟩ | ⟨k, last', p, hends', hfails⟩
    · obtain ⟨k, last', p, hends', hp⟩ := ih hR' fun s' hs' => hgood s' (.head hs hs')
      obtain ⟨k', hends''⟩ := hends'.prepend hgoes
      exact ⟨k', last', p, hends'', hp⟩
    · exact ⟨k, last', p, hends', .inr hfails⟩

/-- Where the second machine stops, it has failed, or the first one stops in the same way. -/
theorem backward (h : Simulates m m' good R same fails) (hR : R s t) (hgood : ∀ s', m.Reaches s s' → good s')
    (hends : m'.Ends n t last' p) : fails last' p ∨ ∃ k last o, m.Ends k s last o ∧ same last o p := by
  -- each step of the first machine makes the run of the second one shorter
  induction n using Nat.strongRecOn generalizing s t with
  | _ n ih =>
    cases hs : m s with
    | inr o =>
      obtain ⟨k, last'', p', hends', hp⟩ := h.stops hR (hgood _ .refl) hs
      obtain ⟨rfl, rfl⟩ := hends.unique hends'
      rcases hp with hsame | hfails
      · exact .inr ⟨0, s, o, .stop hs, hsame⟩
      · exact .inl hfails
    | inl s' =>
      rcases h.goes hR (hgood _ .refl) hs with ⟨t', hgoes, hR'⟩ | ⟨k, last'', p', hends', hfails⟩
      · obtain ⟨k, hk, hrest⟩ := hends.after hgoes
        rcases ih k hk hR' (fun s'' hs'' => hgood s'' (.head hs hs'')) hrest with hp | ⟨l, last, o, hl, hsame⟩
        · exact .inl hp
        · exact .inr ⟨l + 1, last, o, .next hs hl, hsame⟩
      · obtain ⟨rfl, rfl⟩ := hends.unique hends'
        exact .inl hfails

end Simulates

end SystemDesignLabs.Core

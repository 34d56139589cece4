import Mathlib

/-!
# Replicas that exchange states

Every replica has a state, and `past` records all states that any replica has had, so a state can be
delivered late, twice, to some replicas or never. A run changes one replica at a time (`set`). What
holds of every recorded state is carried by the states themselves (`forall_set`), and every current
state is a recorded one (`Recorded`).
-/

namespace SystemDesignLabs.Core

universe u v

/-- The current state of every replica, and all states so far. -/
structure Replicas (ι : Type u) (S : Type v) where
  state : ι → S
  past : List S

namespace Replicas

variable {ι : Type u} {S : Type v}

/-- All replicas start with the same state. -/
def start (s : S) : Replicas ι S := ⟨fun _ => s, [s]⟩

/-- The replica `i` gets the state `s`. -/
def set [DecidableEq ι] (r : Replicas ι S) (i : ι) (s : S) : Replicas ι S :=
  ⟨Function.update r.state i s, r.past ++ [s]⟩

/-- Every current state is a recorded one. -/
def Recorded (r : Replicas ι S) : Prop := ∀ i, r.state i ∈ r.past

theorem recorded_start (s : S) : (start s : Replicas ι S).Recorded :=
  fun _ => List.mem_singleton_self s

variable [DecidableEq ι] {r : Replicas ι S} {i : ι} {s : S}

@[simp] theorem set_state_self : (r.set i s).state i = s := Function.update_self _ _ _

theorem set_state_of_ne {j : ι} (h : j ≠ i) : (r.set i s).state j = r.state j :=
  Function.update_of_ne h _ _

theorem mem_past_set {t : S} : t ∈ (r.set i s).past ↔ t ∈ r.past ∨ t = s := by
  rw [set, List.mem_append, List.mem_singleton]

theorem recorded_set (h : r.Recorded) : (r.set i s).Recorded := by
  intro j
  rw [mem_past_set]
  by_cases hj : j = i
  · subst hj
    exact .inr set_state_self
  · rw [set_state_of_ne hj]
    exact .inl (h j)

theorem forall_set {P : S → Prop} (h : ∀ t ∈ r.past, P t) (hs : P s) : ∀ t ∈ (r.set i s).past, P t := by
  intro t ht
  obtain ht | rfl := mem_past_set.1 ht
  · exact h t ht
  · exact hs

end Replicas

/-!
## The latest of several writes

Writes carry a key from a linear order. `later` chooses between two optional writes and keeps the first
one on equal keys. What it computes from the parts of a set of writes is the latest write of the set
(`IsLatest.later`), and where keys determine the writes there is only one such write
(`IsLatest.unique`). So on states that are the latest of their writes the choice is commutative,
associative and idempotent, although it is not in general.
-/

variable {W : Type u} {K : Type v} [LinearOrder K] (key : W → K)

/-- The write with the larger key; the first one on equal keys. -/
def later : Option W → Option W → Option W
  | none, b => b
  | some a, none => some a
  | some a, some b => if key a < key b then some b else some a

/-- The write is one of those known, and none of them has a larger key. -/
structure IsLatest (known : Set W) (r : Option W) : Prop where
  mem : ∀ w, r = some w → w ∈ known
  max : ∀ x ∈ known, ∃ w, r = some w ∧ key x ≤ key w

variable {key}

theorem IsLatest.empty : IsLatest key (∅ : Set W) none :=
  ⟨fun _ h => absurd h (by simp), fun _ h => absurd h (Set.notMem_empty _)⟩

/-- The later of two latest writes is the latest of all. -/
theorem IsLatest.later {A B : Set W} {a b : Option W} (ha : IsLatest key A a)
    (hb : IsLatest key B b) : IsLatest key (A ∪ B) (Core.later key a b) := by
  cases a with
  | none =>
    refine ⟨fun w hw => .inr (hb.mem w hw), ?_⟩
    intro x hx
    obtain hx | hx := hx
    · obtain ⟨w, hw, -⟩ := ha.max x hx
      exact absurd hw (by simp)
    · exact hb.max x hx
  | some a =>
    have hamax : ∀ x ∈ A, key x ≤ key a := by
      intro x hx
      obtain ⟨w, hw, hle⟩ := ha.max x hx
      rw [Option.some.inj hw]
      exact hle
    cases b with
    | none =>
      refine ⟨fun w hw => .inl (ha.mem w hw), ?_⟩
      intro x hx
      obtain hx | hx := hx
      · exact ⟨a, rfl, hamax x hx⟩
      · obtain ⟨w, hw, -⟩ := hb.max x hx
        exact absurd hw (by simp)
    | some b =>
      have hbmax : ∀ x ∈ B, key x ≤ key b := by
        intro x hx
        obtain ⟨w, hw, hle⟩ := hb.max x hx
        rw [Option.some.inj hw]
        exact hle
      rw [Core.later]
      split
      · rename_i hlt
        refine ⟨fun w hw => .inr (hb.mem w hw), ?_⟩
        intro x hx
        exact ⟨b, rfl, hx.elim (fun hx => (hamax x hx).trans hlt.le) (hbmax x)⟩
      · rename_i hge
        refine ⟨fun w hw => .inl (ha.mem w hw), ?_⟩
        intro x hx
        exact ⟨a, rfl, hx.elim (hamax x) fun hx => (hbmax x hx).trans (not_lt.1 hge)⟩

theorem IsLatest.single (w : W) : IsLatest key {w} (some w) :=
  ⟨fun _ h => (Option.some.inj h).symm, fun _ h => ⟨w, rfl, (congrArg key h).le⟩⟩

/-- Where keys determine the known writes, the latest one is unique. -/
theorem IsLatest.unique {A : Set W} {a b : Option W} (hinj : Set.InjOn key A)
    (ha : IsLatest key A a) (hb : IsLatest key A b) : a = b := by
  cases a with
  | none =>
    cases b with
    | none => rfl
    | some b =>
      obtain ⟨w, hw, -⟩ := ha.max b (hb.mem b rfl)
      exact absurd hw (by simp)
  | some a =>
    obtain ⟨w, rfl, hle⟩ := hb.max a (ha.mem a rfl)
    obtain ⟨w', hw', hge⟩ := ha.max w (hb.mem w rfl)
    rw [← Option.some.inj hw'] at hge
    exact congrArg some (hinj (ha.mem a rfl) (hb.mem w rfl) (le_antisymm hle hge))

section Laws

variable {known A B C : Set W} {a b c : Option W}

theorem later_comm (hinj : Set.InjOn key known) (hA : A ⊆ known) (hB : B ⊆ known)
    (ha : IsLatest key A a) (hb : IsLatest key B b) : later key a b = later key b a := by
  have hba := hb.later ha
  rw [Set.union_comm] at hba
  exact (ha.later hb).unique (hinj.mono (Set.union_subset hA hB)) hba

theorem later_assoc (hinj : Set.InjOn key known) (hA : A ⊆ known) (hB : B ⊆ known)
    (hC : C ⊆ known) (ha : IsLatest key A a) (hb : IsLatest key B b) (hc : IsLatest key C c) :
    later key (later key a b) c = later key a (later key b c) := by
  have hright := ha.later (hb.later hc)
  rw [← Set.union_assoc] at hright
  have hsub : A ∪ B ∪ C ⊆ known := Set.union_subset (Set.union_subset hA hB) hC
  exact ((ha.later hb).later hc).unique (hinj.mono hsub) hright

theorem later_self (a : Option W) : later key a a = a := by
  cases a with
  | none => rfl
  | some a => exact if_neg (lt_irrefl _)

end Laws

end SystemDesignLabs.Core

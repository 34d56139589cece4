import SystemDesignLabs.Core.Replicas
import SystemDesignLabs.Core.TransitionSystem

/-!
# The observed-remove set

`ORSet` of `labs/crdt/pkg/crdt/orset.go`. `Remove` deletes the tags it sees and leaves no trace, and
`Merge` is a union, so a state that still has a removed tag brings it back. In runs where no merge
brings back a tag to a replica that removed it, and where no removal takes the last tags while an
unobserved one was replaced before, the set has observed-remove semantics at every fixed point
(`observedRemove_of_fixedPoint`).
-/

namespace SystemDesignLabs.Crdt

open List Option Core

structure Tag where
  nodeID : String
  counter : Nat
  deriving DecidableEq, Repr

/-- `ORSet`: the tags of each element. An element without an entry has no tags. -/
structure ORSet (T : Type) where
  tags : T → Finset Tag

namespace ORSet

variable {T : Type}

/-- `NewORSet`. -/
def new : ORSet T := ⟨fun _ => ∅⟩

def contains (s : ORSet T) (elem : T) : Bool := 0 < (s.tags elem).card

def merge (s other : ORSet T) : ORSet T := ⟨fun elem => s.tags elem ∪ other.tags elem⟩

variable [DecidableEq T]

/-- `Add`, with the counter that all sets share: the new tag replaces the tags of the element. -/
def add (s : ORSet T) (globalCounter : Nat) (nodeID : String) (elem : T) : ORSet T × Tag × Nat :=
  let counter := globalCounter + 1
  let t : Tag := ⟨nodeID, counter⟩
  (⟨Function.update s.tags elem {t}⟩, t, counter)

def remove (s : ORSet T) (elem : T) : ORSet T := ⟨Function.update s.tags elem ∅⟩

theorem contains_iff {s : ORSet T} {elem : T} : s.contains elem = true ↔ (s.tags elem).Nonempty := by
  rw [contains, decide_eq_true_eq, Finset.card_pos]

end ORSet

/-! ## Runs -/

/-- What a removal saw. -/
structure Removal (ι T : Type) where
  replica : ι
  elem : T
  tags : Finset Tag

/-- The replicas, the shared counter, and the additions and removals so far. -/
structure World (ι T : Type) where
  replicas : Replicas ι (ORSet T)
  globalCounter : Nat
  adds : List (T × Tag)
  removes : List (Removal ι T)

/-- `merge i k` merges the `k`-th recorded state into replica `i`. -/
inductive Op (ι T : Type) where
  | add (i : ι) (nodeID : String) (elem : T)
  | remove (i : ι) (elem : T)
  | merge (i : ι) (k : Nat)

namespace World

variable {ι T : Type}

def start (ι T : Type) : World ι T := ⟨.start .new, 0, [], []⟩

variable [DecidableEq ι] [DecidableEq T]

def step (w : World ι T) : Op ι T → Option (World ι T)
  | .add i nodeID elem =>
    let (s, t, counter) := (w.replicas.state i).add w.globalCounter nodeID elem
    some ⟨w.replicas.set i s, counter, w.adds ++ [(elem, t)], w.removes⟩
  | .remove i elem =>
    let s := w.replicas.state i
    some ⟨w.replicas.set i (s.remove elem), w.globalCounter, w.adds,
      w.removes ++ [⟨i, elem, s.tags elem⟩]⟩
  | .merge i k =>
    w.replicas.past[k]?.map fun other =>
      { w with replicas := w.replicas.set i ((w.replicas.state i).merge other) }

/-- A removal of the element saw the tag. -/
def Observed (w : World ι T) (elem : T) (t : Tag) : Prop :=
  ∃ r ∈ w.removes, r.elem = elem ∧ t ∈ r.tags

/-- Merging the state of any replica into any other changes nothing. -/
def FixedPoint (w : World ι T) : Prop :=
  ∀ i j, (w.replicas.state i).merge (w.replicas.state j) = w.replicas.state i

/-- An element is contained, at every replica, if and only if one of its additions has a tag that no
removal of the element saw. -/
def ObservedRemove (w : World ι T) : Prop :=
  ∀ i elem, (w.replicas.state i).contains elem = true ↔
    ∃ t, (elem, t) ∈ w.adds ∧ ¬ w.Observed elem t

/-- A removal leaves a tag at another replica, unless by then all tags of the element were seen by
removals; a merge brings back no tag that a removal at the same replica saw. -/
def Keeps (w : World ι T) : Op ι T → Prop
  | .add _ _ _ => True
  | .remove i elem =>
    (∃ j, j ≠ i ∧ ((w.replicas.state j).tags elem).Nonempty) ∨
      ∀ p ∈ w.adds, p.1 = elem →
        p.2 ∈ (w.replicas.state i).tags elem ∨ w.Observed elem p.2
  | .merge i k =>
    ∀ other ∈ w.replicas.past[k]?,
      ∀ r ∈ w.removes, r.replica = i → Disjoint r.tags (other.tags r.elem)

instance (w : World ι T) (elem : T) (t : Tag) : Decidable (w.Observed elem t) :=
  inferInstanceAs (Decidable (∃ r ∈ w.removes, r.elem = elem ∧ t ∈ r.tags))

instance [Fintype ι] (w : World ι T) : (op : Op ι T) → Decidable (w.Keeps op)
  | .add _ _ _ => isTrue trivial
  | .remove _ _ => inferInstanceAs (Decidable ((∃ _, _) ∨ ∀ p ∈ w.adds, _))
  | .merge _ k => inferInstanceAs (Decidable (∀ other ∈ w.replicas.past[k]?, _))

/-! ## The invariant -/

/-- Tags come from additions; what a replica removed it does not have; and while some tag was seen by no
removal, some replica has a tag. -/
structure Traced (w : World ι T) : Prop where
  recorded : w.replicas.Recorded
  added : ∀ s ∈ w.replicas.past, ∀ elem, ∀ t ∈ s.tags elem, (elem, t) ∈ w.adds
  counted : ∀ p ∈ w.adds, p.2.counter ≤ w.globalCounter
  seen : ∀ r ∈ w.removes, ∀ t ∈ r.tags, (r.elem, t) ∈ w.adds
  removed : ∀ r ∈ w.removes, Disjoint r.tags ((w.replicas.state r.replica).tags r.elem)
  present : ∀ elem t, (elem, t) ∈ w.adds → ¬ w.Observed elem t →
    ∃ j, ((w.replicas.state j).tags elem).Nonempty

theorem traced_start : (start ι T).Traced := by
  refine ⟨Replicas.recorded_start _, ?_, ?_, ?_, ?_, ?_⟩
  · intro s hs elem t ht
    rw [mem_singleton.1 hs] at ht
    exact absurd ht (Finset.notMem_empty t)
  · exact fun p hp => absurd hp not_mem_nil
  · exact fun r hr => absurd hr not_mem_nil
  · exact fun r hr => absurd hr not_mem_nil
  · exact fun elem t ht => absurd ht not_mem_nil

theorem tags_set_update (r : Replicas ι (ORSet T)) (i j : ι) (elem e : T) (x : Finset Tag) :
    ((r.set i ⟨Function.update (r.state i).tags elem x⟩).state j).tags e =
      if j = i ∧ e = elem then x else (r.state j).tags e := by
  by_cases hj : j = i
  · subst hj
    rw [Replicas.set_state_self]
    by_cases he : e = elem
    · subst he
      rw [if_pos ⟨rfl, rfl⟩]
      exact Function.update_self _ _ _
    · rw [if_neg fun h => he h.2]
      exact Function.update_of_ne he _ _
  · rw [Replicas.set_state_of_ne hj, if_neg fun h => hj h.1]

theorem added_set_update {r : Replicas ι (ORSet T)} {adds adds' : List (T × Tag)}
    (h : ∀ s ∈ r.past, ∀ e, ∀ t ∈ s.tags e, (e, t) ∈ adds) (hrec : r.Recorded)
    (hsub : ∀ p ∈ adds, p ∈ adds') {i : ι} {elem : T} {x : Finset Tag} (hx : ∀ t ∈ x, (elem, t) ∈ adds') :
    ∀ s ∈ (r.set i ⟨Function.update (r.state i).tags elem x⟩).past, ∀ e, ∀ t ∈ s.tags e, (e, t) ∈ adds' := by
  apply Replicas.forall_set
  · exact fun s hs e t ht => hsub _ (h s hs e t ht)
  · intro e t ht
    have htags := tags_set_update r i i elem e x
    rw [Replicas.set_state_self] at htags
    rw [htags] at ht
    split at ht
    · rename_i he
      rw [he.2]
      exact hx t ht
    · exact hsub _ (h _ (hrec i) e t ht)

variable {w w' : World ι T}

theorem traced_add {i : ι} {nodeID : String} {elem : T} (h : w.Traced)
    (hs : w.step (.add i nodeID elem) = some w') : w'.Traced := by
  simp only [step, ORSet.add, some.injEq] at hs
  subst hs
  have hfresh : ∀ e, (e, (⟨nodeID, w.globalCounter + 1⟩ : Tag)) ∉ w.adds :=
    fun e he => absurd (h.counted _ he) (Nat.not_succ_le_self _)
  refine ⟨Replicas.recorded_set h.recorded, ?_, ?_, ?_, ?_, ?_⟩
  · apply added_set_update h.added h.recorded fun p hp => mem_append_left _ hp
    intro t ht
    rw [Finset.mem_singleton.1 ht]
    exact mem_append_right _ (mem_singleton_self _)
  · intro p hp
    obtain hp | hp := mem_append.1 hp
    · exact (h.counted p hp).trans (Nat.le_succ _)
    · rw [mem_singleton.1 hp]
  · exact fun r hr t ht => mem_append_left _ (h.seen r hr t ht)
  · intro r hr
    rw [tags_set_update]
    split
    · rw [Finset.disjoint_singleton_right]
      exact fun ht => hfresh r.elem (h.seen r hr _ ht)
    · exact h.removed r hr
  · intro e t ht hobs
    by_cases he : e = elem
    · refine ⟨i, ?_⟩
      rw [tags_set_update, if_pos ⟨rfl, he⟩]
      exact Finset.singleton_nonempty _
    · have hold : (e, t) ∈ w.adds := by
        obtain ht | ht := mem_append.1 ht
        · exact ht
        · exact absurd (Prod.mk.inj (mem_singleton.1 ht)).1 he
      obtain ⟨j, hj⟩ := h.present e t hold hobs
      refine ⟨j, ?_⟩
      rw [tags_set_update, if_neg fun h => he h.2]
      exact hj

theorem traced_remove {i : ι} {elem : T} (h : w.Traced) (hok : w.Keeps (.remove i elem))
    (hs : w.step (.remove i elem) = some w') : w'.Traced := by
  simp only [step, ORSet.remove, some.injEq] at hs
  subst hs
  refine ⟨Replicas.recorded_set h.recorded, ?_, h.counted, ?_, ?_, ?_⟩
  · apply added_set_update h.added h.recorded fun p hp => hp
    exact fun t ht => absurd ht (Finset.notMem_empty t)
  · intro r hr t ht
    obtain hold | hnew := mem_append.1 hr
    · exact h.seen r hold t ht
    · rw [mem_singleton.1 hnew] at ht ⊢
      exact h.added _ (h.recorded i) elem t ht
  · intro r hr
    rw [tags_set_update]
    obtain hold | hnew := mem_append.1 hr
    · split
      · exact Finset.disjoint_empty_right _
      · exact h.removed r hold
    · rw [mem_singleton.1 hnew, if_pos ⟨rfl, rfl⟩]
      exact Finset.disjoint_empty_right _
  · intro e t ht hobs
    have hold : ¬ w.Observed e t := by
      intro ⟨r, hr, hre, hrt⟩
      exact hobs ⟨r, mem_append_left _ hr, hre, hrt⟩
    have hother : ∃ j, ¬ (j = i ∧ e = elem) ∧ ((w.replicas.state j).tags e).Nonempty := by
      by_cases he : e = elem
      · subst he
        obtain ⟨j, hj, hne⟩ | hall := hok
        · exact ⟨j, fun h => hj h.1, hne⟩
        · -- all tags were seen, this one too
          obtain htag | hseen := hall (e, t) ht rfl
          · exact absurd ⟨_, mem_append_right _ (mem_singleton_self _), rfl, htag⟩ hobs
          · exact absurd hseen hold
      · obtain ⟨j, hj⟩ := h.present e t ht hold
        exact ⟨j, fun h => he h.2, hj⟩
    obtain ⟨j, hj, hne⟩ := hother
    refine ⟨j, ?_⟩
    rw [tags_set_update, if_neg hj]
    exact hne

theorem traced_merge {i : ι} {k : Nat} (h : w.Traced) (hok : w.Keeps (.merge i k))
    (hs : w.step (.merge i k) = some w') : w'.Traced := by
  obtain ⟨other, hother, rfl⟩ := map_eq_some_iff.1 hs
  have hmem : other ∈ w.replicas.past := mem_of_getElem? hother
  refine ⟨Replicas.recorded_set h.recorded, ?_, h.counted, h.seen, ?_, ?_⟩
  · apply Replicas.forall_set h.added
    intro e t ht
    obtain ht | ht := Finset.mem_union.1 ht
    · exact h.added _ (h.recorded i) e t ht
    · exact h.added other hmem e t ht
  · intro r hr
    by_cases hi : r.replica = i
    · subst hi
      rw [Replicas.set_state_self]
      exact Finset.disjoint_union_right.2 ⟨h.removed r hr, hok other hother r hr rfl⟩
    · rw [Replicas.set_state_of_ne hi]
      exact h.removed r hr
  · intro e t ht hobs
    obtain ⟨j, hj⟩ := h.present e t ht hobs
    refine ⟨j, ?_⟩
    by_cases hji : j = i
    · subst hji
      rw [Replicas.set_state_self]
      exact hj.mono Finset.subset_union_left
    · rw [Replicas.set_state_of_ne hji]
      exact hj

theorem traced_step {op : Op ι T} (h : w.Traced) (hok : w.Keeps op) (hs : w.step op = some w') : w'.Traced := by
  cases op with
  | add i nodeID elem => exact traced_add h hs
  | remove i elem => exact traced_remove h hok hs
  | merge i k => exact traced_merge h hok hs

omit [DecidableEq ι] [DecidableEq T] in
theorem FixedPoint.tags_eq (h : w.FixedPoint) (i j : ι) (elem : T) :
    (w.replicas.state i).tags elem = (w.replicas.state j).tags elem := by
  have hle : ∀ i j, (w.replicas.state j).tags elem ⊆ (w.replicas.state i).tags elem := by
    intro i j
    have htags := congrArg (fun s => s.tags elem) (h i j)
    exact Finset.union_eq_left.1 htags
  exact Finset.Subset.antisymm (hle j i) (hle i j)

/-- **Observed-remove semantics at every fixed point**, in runs whose merges bring back nothing that the
merging replica removed and whose removals take no element away while an unobserved tag of it was
replaced. -/
theorem observedRemove_of_fixedPoint {w : World ι T}
    (hreach : ReachableIf step Keeps (start ι T) w) (hfix : w.FixedPoint) : w.ObservedRemove := by
  have h : w.Traced := by
    refine hreach.invariant (I := Traced) traced_start ?_
    intro w op w' _ h hok hs
    exact traced_step h hok hs
  intro i elem
  rw [ORSet.contains_iff]
  constructor
  · intro ⟨t, ht⟩
    refine ⟨t, h.added _ (h.recorded i) elem t ht, ?_⟩
    intro ⟨r, hr, hre, hrt⟩
    subst hre
    have hat : t ∈ (w.replicas.state r.replica).tags r.elem := hfix.tags_eq i r.replica r.elem ▸ ht
    exact Finset.disjoint_left.1 (h.removed r hr) hrt hat
  · intro ⟨t, ht, hobs⟩
    obtain ⟨j, hj⟩ := h.present elem t ht hobs
    exact hfix.tags_eq j i elem ▸ hj


theorem fixedPoint_of_subset
    (h : ∀ i j elem, (w.replicas.state j).tags elem ⊆ (w.replicas.state i).tags elem) : w.FixedPoint := by
  intro i j
  rw [ORSet.merge]
  congr 1
  funext elem
  exact Finset.union_eq_left.2 (h i j elem)

/-- An element is added at one replica, removed there, and added again at the other one. -/
def readdRun : List (Op Bool Bool) :=
  [.add true "a" true, .merge false 1, .add false "b" true, .remove true true, .merge true 3]

theorem observedRemove_of_fixedPoint_readd : ∃ w, exec step (start Bool Bool) readdRun = some w ∧
    w.FixedPoint ∧ w.ObservedRemove := by
  have hrun : (execIf step (fun w op => decide (Keeps w op)) (start Bool Bool) readdRun).map
      (fun w => decide (∀ i j elem, (w.replicas.state j).tags elem ⊆ (w.replicas.state i).tags elem)) = some true := by
    rfl
  obtain ⟨w, hw, hsub⟩ := map_eq_some_iff.1 hrun
  have hfix := fixedPoint_of_subset (of_decide_eq_true hsub)
  have hreach : ReachableIf step Keeps (start Bool Bool) w :=
    ReachableIf.execIf (fun _ _ h => of_decide_eq_true h) .init hw
  exact ⟨w, execIf_exec hw, hfix, observedRemove_of_fixedPoint hreach hfix⟩

/-- An element is removed at one replica, and a merge with the other one brings it back. -/
def returnRun : List (Op Bool Bool) :=
  [.add true "a" true, .merge false 1, .remove true true, .merge true 2]

theorem removedTag_returns : ∃ w, exec step (start Bool Bool) returnRun = some w ∧
    w.FixedPoint ∧ ¬ w.ObservedRemove := by
  have hrun : (exec step (start Bool Bool) returnRun).map (fun w => decide ((∀ i j elem, (w.replicas.state j).tags elem
      ⊆ (w.replicas.state i).tags elem) ∧ (w.replicas.state true).contains true = true ∧ ∀ p ∈ w.adds, w.Observed p.1
      p.2)) = some true := by
    rfl
  obtain ⟨w, hw, hfacts⟩ := map_eq_some_iff.1 hrun
  obtain ⟨hsub, hcontains, hobs⟩ := of_decide_eq_true hfacts
  refine ⟨w, hw, fixedPoint_of_subset hsub, ?_⟩
  intro h
  obtain ⟨t, ht, hnot⟩ := (h true true).1 hcontains
  exact hnot (hobs (true, t) ht)

end World

end SystemDesignLabs.Crdt

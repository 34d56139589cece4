import Mathlib

/-!
# Slots with a free list

A growing array of slots that are full or empty, and the list of the empty ones, as heaps and pools keep
them. A handle is an index. `alloc` takes the last free slot or a new one, `adjust` changes the content of
a full slot, and `sweep` empties the slots that fail a test. `Sound` says that the free list has exactly
the empty slots, each once; every operation keeps it, and so no operation touches a slot that it should
not.
-/

namespace SystemDesignLabs.Core

open List Option

universe u

/-- Slots and the indices of the empty ones. -/
structure Slots (α : Type u) where
  objects : List (Option α)
  freeList : List Nat
  deriving DecidableEq

namespace Slots

variable {α : Type u}

/-- No slots. -/
def empty : Slots α := ⟨[], []⟩

/-- The content of a slot. -/
def get (s : Slots α) (h : Nat) : Option α := s.objects[h]?.join

/-- Fill the last free slot, or a new one. -/
def alloc (s : Slots α) (a : α) : Nat × Slots α :=
  match s.freeList.getLast? with
  | some idx => (idx, ⟨s.objects.set idx (some a), s.freeList.dropLast⟩)
  | none => (s.objects.length, ⟨s.objects ++ [some a], s.freeList⟩)

/-- Allocate several contents, one after the other. -/
def allocAll (s : Slots α) : List α → List Nat × Slots α
  | [] => ([], s)
  | a :: as =>
    let rest := (s.alloc a).2.allocAll as
    ((s.alloc a).1 :: rest.1, rest.2)

/-- Change the content of a slot, if it has one. -/
def adjust (s : Slots α) (h : Nat) (f : α → α) : Slots α := ⟨s.objects.modify h (Option.map f), s.freeList⟩

/-- Change all contents. -/
def mapAll (s : Slots α) (f : α → α) : Slots α := ⟨s.objects.map (Option.map f), s.freeList⟩

/-- The full slots whose content passes the test, in order. -/
def select (s : Slots α) (p : α → Bool) : List Nat :=
  (List.range s.objects.length).filter fun i => (s.get i).any p

/-- Empty the slots whose content passes the test, and free them. -/
def sweep (s : Slots α) (p : α → Bool) : Slots α :=
  ⟨s.objects.map (Option.filter fun a => !p a), s.freeList ++ s.select p⟩

/-- The free list has the empty slots, each once. -/
structure Sound (s : Slots α) : Prop where
  nodup : s.freeList.Nodup
  mem_iff : ∀ i, i ∈ s.freeList ↔ s.objects[i]? = some none

theorem sound_empty : (empty : Slots α).Sound :=
  ⟨nodup_nil, fun i => ⟨fun h => absurd h not_mem_nil, fun h => absurd h (by simp [empty])⟩⟩

variable {s : Slots α} {h : Nat}

theorem get_eq_some {a : α} : s.get h = some a ↔ s.objects[h]? = some (some a) := by
  rw [get, join_eq_some_iff]

theorem get_eq_none : s.get h = none ↔ s.objects.length ≤ h ∨ s.objects[h]? = some none := by
  rw [get, join_eq_none_iff, getElem?_eq_none_iff]

theorem lt_length_of_get {a : α} (hget : s.get h = some a) : h < s.objects.length :=
  (List.getElem?_eq_some_iff.1 (get_eq_some.1 hget)).1

/-! ### Allocation -/

theorem get_alloc_fst (hs : s.Sound) (a : α) : s.get (s.alloc a).1 = none := by
  rw [alloc]
  split
  · rename_i idx hlast
    exact get_eq_none.2 (.inr ((hs.mem_iff idx).1 (mem_of_getLast? hlast)))
  · exact get_eq_none.2 (.inl (Nat.le_refl _))

/-- Allocation fills one slot and leaves all others. -/
theorem get_alloc (hs : s.Sound) (a : α) (k : Nat) :
    (s.alloc a).2.get k = if k = (s.alloc a).1 then some a else s.get k := by
  rw [alloc]
  split
  · rename_i idx hlast
    dsimp only
    have hidx := (hs.mem_iff idx).1 (mem_of_getLast? hlast)
    rw [get, getElem?_set]
    split
    · rename_i heq
      rw [if_pos heq.symm, if_pos (List.getElem?_eq_some_iff.1 hidx).1]
      rfl
    · rename_i hne
      rw [if_neg (Ne.symm hne), get]
  · dsimp only
    rw [get, getElem?_append]
    split
    · rename_i hlt
      rw [if_neg (Nat.ne_of_lt hlt), get]
    · rename_i hge
      by_cases heq : k = s.objects.length
      · rw [if_pos heq, heq, Nat.sub_self]
        rfl
      · rw [if_neg heq, getElem?_eq_none (by simp; omega)]
        exact (get_eq_none.2 (.inl (Nat.le_of_not_lt hge))).symm

theorem sound_alloc (hs : s.Sound) (a : α) : (s.alloc a).2.Sound := by
  rw [alloc]
  split
  · rename_i idx hlast
    obtain ⟨init, hinit⟩ := getLast?_eq_some_iff.1 hlast
    have hnodup := hs.nodup
    rw [hinit, nodup_append] at hnodup
    refine ⟨?_, ?_⟩
    · dsimp only
      rw [hinit, dropLast_concat]
      exact hnodup.1
    · intro i
      dsimp only
      rw [hinit, dropLast_concat, getElem?_set]
      have hidx := (hs.mem_iff idx).1 (mem_of_getLast? hlast)
      by_cases heq : idx = i
      · subst heq
        rw [if_pos rfl, if_pos (List.getElem?_eq_some_iff.1 hidx).1]
        constructor
        · intro hmem
          exact absurd rfl (hnodup.2.2 idx hmem idx (mem_singleton_self _))
        · intro hnone
          exact absurd hnone (by simp)
      · rw [if_neg heq, ← hs.mem_iff i, hinit, mem_append, mem_singleton]
        exact ⟨.inl, fun hmem => hmem.resolve_right (Ne.symm heq)⟩
  · rename_i hnone
    have hnil : s.freeList = [] := getLast?_eq_none_iff.1 hnone
    refine ⟨hs.nodup, ?_⟩
    intro i
    dsimp only
    rw [hs.mem_iff i, getElem?_append]
    split
    · rfl
    · rename_i hge
      constructor
      · intro h
        exact absurd (List.getElem?_eq_some_iff.1 h).1 hge
      · intro h
        obtain ⟨hlt, hval⟩ := List.getElem?_eq_some_iff.1 h
        have hzero : i - s.objects.length = 0 := by
          rw [length_singleton] at hlt
          omega
        rw [getElem_singleton] at hval
        exact absurd hval (by simp)

theorem get_alloc_of_some (hs : s.Sound) (a : α) {k : Nat} {b : α} (hget : s.get k = some b) :
    (s.alloc a).2.get k = some b := by
  rw [get_alloc hs, if_neg, hget]
  rintro rfl
  rw [get_alloc_fst hs] at hget
  exact absurd hget (by simp)

theorem length_allocAll (as : List α) (s : Slots α) : (s.allocAll as).1.length = as.length := by
  induction as generalizing s with
  | nil => rfl
  | cons a as ih => exact congrArg (· + 1) (ih _)

/-- Allocating several contents fills empty slots, each with its own content, and leaves the full
ones. -/
theorem allocAll_spec (as : List α) (hs : s.Sound) :
    (s.allocAll as).2.Sound ∧ (∀ k b, s.get k = some b → (s.allocAll as).2.get k = some b) ∧
      ∀ i k : Nat, (s.allocAll as).1[i]? = some k → s.get k = none ∧ (s.allocAll as).2.get k = as[i]? := by
  induction as generalizing s with
  | nil => exact ⟨hs, fun _ _ => id, fun i k h => absurd h (by simp [allocAll])⟩
  | cons a as ih =>
    obtain ⟨hsound, hkeep, hnew⟩ := ih (sound_alloc hs a)
    refine ⟨hsound, fun k b hget => hkeep k b (get_alloc_of_some hs a hget), ?_⟩
    intro i k hk
    cases i with
    | zero =>
      have hfirst : (s.alloc a).1 = k := some.inj hk
      subst hfirst
      refine ⟨get_alloc_fst hs a, hkeep _ a ?_⟩
      rw [get_alloc hs, if_pos rfl]
    | succ i =>
      obtain ⟨hdead, hget⟩ := hnew i k hk
      refine ⟨?_, hget⟩
      rw [get_alloc hs] at hdead
      split at hdead
      · exact absurd hdead (by simp)
      · exact hdead

theorem mem_of_get_allocAll (as : List α) (hs : s.Sound) {k : Nat} {b : α}
    (hget : (s.allocAll as).2.get k = some b) : s.get k = some b ∨ b ∈ as := by
  induction as generalizing s with
  | nil => exact .inl hget
  | cons a as ih =>
    obtain hold | hmem := ih (sound_alloc hs a) hget
    · rw [get_alloc hs] at hold
      split at hold
      · exact .inr (some.inj hold ▸ mem_cons_self)
      · exact .inl hold
    · exact .inr (mem_cons_of_mem a hmem)

/-! ### Changing contents -/

theorem get_adjust (s : Slots α) (h : Nat) (f : α → α) (k : Nat) :
    (s.adjust h f).get k = if k = h then (s.get h).map f else s.get k := by
  rw [get, adjust, getElem?_modify]
  by_cases heq : k = h
  · subst heq
    rw [if_pos rfl, get]
    cases s.objects[k]? with
    | none => rfl
    | some o => cases o <;> simp
  · rw [if_neg heq, get]
    cases s.objects[k]? with
    | none => rfl
    | some o => simp [Ne.symm heq]

theorem sound_adjust (hs : s.Sound) (h : Nat) (f : α → α) : (s.adjust h f).Sound := by
  refine ⟨hs.nodup, ?_⟩
  intro i
  rw [adjust, hs.mem_iff i, getElem?_modify]
  cases s.objects[i]? with
  | none => simp
  | some o =>
    by_cases heq : h = i
    · cases o <;> simp [heq]
    · cases o <;> simp [heq]

theorem get_mapAll (s : Slots α) (f : α → α) (k : Nat) : (s.mapAll f).get k = (s.get k).map f := by
  rw [get, mapAll, getElem?_map, get]
  cases s.objects[k]? with
  | none => rfl
  | some o => cases o <;> rfl

theorem sound_mapAll (hs : s.Sound) (f : α → α) : (s.mapAll f).Sound := by
  refine ⟨hs.nodup, ?_⟩
  intro i
  rw [mapAll, hs.mem_iff i, getElem?_map]
  cases s.objects[i]? with
  | none => simp
  | some o => cases o <;> simp

/-! ### Sweeping -/

theorem mem_select {p : α → Bool} {i : Nat} : i ∈ s.select p ↔ ∃ a, s.get i = some a ∧ p a = true := by
  rw [select, List.mem_filter, List.mem_range, Option.any_eq_true]
  constructor
  · rintro ⟨-, a, ha⟩
    exact ⟨a, ha⟩
  · rintro ⟨a, hget, hp⟩
    exact ⟨lt_length_of_get hget, a, hget, hp⟩

/-- A sweep empties exactly the slots that pass the test. -/
theorem get_sweep (s : Slots α) (p : α → Bool) (k : Nat) : (s.sweep p).get k = (s.get k).filter fun a => !p a := by
  rw [get, sweep, getElem?_map, get]
  cases s.objects[k]? with
  | none => rfl
  | some o => rfl

theorem sound_sweep (hs : s.Sound) (p : α → Bool) : (s.sweep p).Sound := by
  refine ⟨?_, ?_⟩
  · rw [sweep, nodup_append]
    refine ⟨hs.nodup, nodup_range.filter _, ?_⟩
    rintro i hi _ hj rfl
    obtain ⟨a, hget, -⟩ := mem_select.1 hj
    rw [get_eq_some, (hs.mem_iff i).1 hi] at hget
    exact absurd hget (by simp)
  · intro i
    rw [sweep, mem_append, mem_select, hs.mem_iff i, getElem?_map]
    simp only [get_eq_some]
    cases s.objects[i]? with
    | none => simp
    | some o =>
      cases o with
      | none => simp
      | some a => simp [filter]

theorem filterMap_select (s : Slots α) (p : α → Bool) :
    (s.select p).filterMap s.get = s.objects.filterMap (Option.filter p) := by
  have hlist : ∀ l : List (Option α),
      ((List.range l.length).filter fun i => (l[i]?.join).any p).filterMap (fun i => l[i]?.join) =
        l.filterMap (Option.filter p) := by
    intro l
    induction l with
    | nil => rfl
    | cons o l ih =>
      have hrest : ((List.map Nat.succ (List.range l.length)).filter fun i =>
          ((o :: l)[i]?.join).any p).filterMap (fun i => (o :: l)[i]?.join) =
            l.filterMap (Option.filter p) := by
        rw [List.filter_map, List.filterMap_map, ← ih]
        rfl
      rw [List.length_cons, List.range_succ_eq_map, List.filter_cons]
      cases o with
      | none => exact hrest
      | some a =>
        cases hp : p a with
        | true => simp [Option.filter, hp, hrest]
        | false => simp [Option.filter, hp, hrest]
  exact hlist s.objects

theorem getElem?_filterMap_select (s : Slots α) (p : α → Bool) (i : Nat) :
    ((s.select p).filterMap s.get)[i]? = (s.select p)[i]?.bind s.get := by
  have hlist : ∀ l : List Nat, (∀ h ∈ l, s.get h ≠ none) → ∀ i : Nat,
      (l.filterMap s.get)[i]? = l[i]?.bind s.get := by
    intro l
    induction l with
    | nil => exact fun _ i => rfl
    | cons h l ih =>
      intro hl i
      obtain ⟨hh, hl⟩ := forall_mem_cons.1 hl
      obtain ⟨a, ha⟩ := ne_none_iff_exists'.1 hh
      rw [filterMap_cons_some ha]
      cases i with
      | zero => exact ha.symm
      | succ i => exact ih hl i
  refine hlist _ (fun h hh => ?_) i
  obtain ⟨a, ha, -⟩ := mem_select.1 hh
  rw [ha]
  simp

theorem foldl_addNew {q : Nat → Prop} [DecidablePred q] {l : List Nat} (hl : l.Nodup) (known : List Nat) :
    l.foldl (fun known i => if q i ∧ i ∉ known then known ++ [i] else known) known =
      known ++ l.filter fun i => q i ∧ i ∉ known := by
  induction l generalizing known with
  | nil => exact (append_nil known).symm
  | cons i l ih =>
    obtain ⟨hi, hl⟩ := nodup_cons.1 hl
    rw [foldl_cons, ih hl, filter_cons]
    split
    · rename_i hnew
      have hrest : (l.filter fun j => q j ∧ j ∉ known ++ [i]) = l.filter fun j => q j ∧ j ∉ known := by
        refine filter_congr fun j hj => ?_
        have hne : j ≠ i := fun heq => hi (heq ▸ hj)
        simp [hne]
      rw [if_pos (decide_eq_true hnew), hrest, append_assoc, singleton_append]
    · rename_i hold
      rw [if_neg (by simpa using hold)]

/-- The free list of a sweep can be rebuilt by adding all empty slots that are not in it. -/
theorem freeList_sweep (hs : s.Sound) (p : α → Bool) {q : Nat → Prop} [DecidablePred q]
    (hq : ∀ i, q i ↔ (s.sweep p).objects[i]? = some none) :
    (s.sweep p).freeList = (List.range (s.sweep p).objects.length).foldl
      (fun known i => if q i ∧ i ∉ known then known ++ [i] else known) s.freeList := by
  rw [foldl_addNew nodup_range]
  refine congrArg (s.freeList ++ ·) ?_
  rw [select, sweep, length_map]
  refine filter_congr fun i _ => ?_
  rw [Bool.eq_iff_iff, decide_eq_true_iff, hq, hs.mem_iff, sweep, getElem?_map, get]
  cases s.objects[i]? with
  | none => simp
  | some o =>
    cases o with
    | none => simp
    | some a => cases hp : p a <;> simp [filter, hp]

end Slots

end SystemDesignLabs.Core

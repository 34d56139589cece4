import SystemDesignLabs.RegexEngine.Simulation

/-!
# Subset construction

`Dfa::from_nfa` and `Dfa::is_match_full` of `v2.rs`. The worklist is the part of the list of all known sets
that was not looked at yet, and a set's number is its position in that list (`Built`). One character fills one
cell of the table (`Built.addTransition`), and a row is final once its set was taken off the worklist. There
are no more sets of states than subsets (`Built.length_le`), which bounds the table and the loop.
-/

namespace SystemDesignLabs.RegexEngine

open Core Finset

/-! ### The construction -/

def asciiCount : Nat := 128

/-- A DFA: for each state its row of next states, `none` for `usize::MAX`. -/
structure Dfa where
  transitions : List (List (Option Nat))
  accepting : List Bool
  start : Nat
  deriving DecidableEq, Repr

def sortedSet (set : List Nat) : List Nat :=
  set.insertionSort (· ≤ ·)

/-- The variables of `from_nfa`. -/
structure Building where
  stateMap : List (List Nat × Nat)
  transitions : List (List (Option Nat))
  accepting : List Bool
  worklist : List (List Nat)
  deriving DecidableEq, Repr

namespace Building

/-- A set that was not seen before gets the next number. -/
def addState (nfa : Nfa) (set : List Nat) (b : Building) : Building where
  stateMap := (set, b.transitions.length) :: b.stateMap
  transitions := b.transitions ++ [List.replicate asciiCount none]
  accepting := b.accepting ++ [set.contains nfa.accept]
  worklist := b.worklist ++ [set]

/-- `transitions[dfa_id][c] = next_dfa_id`. -/
def setTransition (dfaId c nextDfaId : Nat) (b : Building) : Building :=
  { b with transitions := b.transitions.modify dfaId fun row => row.set c (some nextDfaId) }

/-- The body of the inner loop of `from_nfa`, for one character. -/
def addTransition (nfa : Nfa) (dfaSet : List Nat) (dfaId : Nat) (b : Building) (c : Nat) : Building :=
  let nextNfa := nextActive nfa dfaSet (Char.ofNat c)
  if nextNfa.isEmpty then b
  else
    let nextSet := sortedSet (epsilonClosure nfa nextNfa)
    match b.stateMap.lookup nextSet with
    | some id => b.setTransition dfaId c id
    | none => (b.addState nfa nextSet).setTransition dfaId c b.transitions.length

/-- The worklist loop of `from_nfa`. It has no result when the fuel runs out, or when a set of the worklist
has no number, where the source panics. -/
def loop (nfa : Nfa) : Nat → Building → Option Building
  | 0, _ => none
  | fuel + 1, b =>
    match b.worklist with
    | [] => some b
    | dfaSet :: rest =>
      match b.stateMap.lookup dfaSet with
      | none => none
      | some dfaId =>
        loop nfa fuel
          ((List.range asciiCount).foldl (addTransition nfa dfaSet dfaId) { b with worklist := rest })

/-- The variables before the loop. -/
def initial (nfa : Nfa) : Building :=
  addState nfa (sortedSet (epsilonClosure nfa [nfa.start])) ⟨[], [], [], []⟩

end Building

def Dfa.fromNfa (nfa : Nfa) : Option Dfa :=
  (Building.loop nfa (2 ^ nfa.states.length + 1) (Building.initial nfa)).map fun b =>
    ⟨b.transitions, b.accepting, 0⟩

/-- The loop of `is_match_full`. -/
def Dfa.isMatchFrom (dfa : Dfa) : Nat → List Char → Bool
  | state, [] => dfa.accepting.getD state false
  | state, c :: text =>
    if c.toNat ≥ asciiCount then false
    else
      match (dfa.transitions.getD state []).getD c.toNat none with
      | none => false
      | some next => dfa.isMatchFrom next text

def Dfa.isMatchFull (dfa : Dfa) (text : List Char) : Bool :=
  dfa.isMatchFrom dfa.start text

def Dfa.stateCount (dfa : Dfa) : Nat :=
  dfa.transitions.length

/-! ### Sets of states -/

/-- The states of the automaton in increasing order. -/
structure IsStateSet (nfa : Nfa) (set : List Nat) : Prop where
  sorted : set.Pairwise (· < ·)
  lt : ∀ q ∈ set, q < nfa.states.length

theorem mem_sortedSet {set : List Nat} {q : Nat} : q ∈ sortedSet set ↔ q ∈ set :=
  List.mem_insertionSort _

variable {nfa : Nfa}

theorem sortedSet_epsilonClosure (hwf : nfa.WellFormed) {starts : List Nat}
    (hstarts : ∀ q ∈ starts, q < nfa.states.length) : IsStateSet nfa (sortedSet (epsilonClosure nfa starts)) where
  sorted := by
    have hperm := List.perm_insertionSort (· ≤ ·) (epsilonClosure nfa starts)
    have hnodup := hperm.nodup_iff.2 (epsilonClosure_nodup nfa starts)
    have hle := List.pairwise_insertionSort (· ≤ ·) (epsilonClosure nfa starts)
    exact (hle.and hnodup).imp fun h => Nat.lt_of_le_of_ne h.1 h.2
  lt := by
    intro q hq
    rw [mem_sortedSet, mem_epsilonClosure] at hq
    induction hq with
    | base p hp => exact hstarts p hp
    | step p q hstep _ _ =>
      obtain ⟨s, hs, hq⟩ := hstep
      exact hwf.edges_lt p s hs q (NfaState.mem_edges_of_mem_targets hq)

theorem nextActive_lt (hwf : nfa.WellFormed) {active : List Nat} {c : Char} {q : Nat}
    (hq : q ∈ nextActive nfa active c) : q < nfa.states.length := by
  obtain ⟨p, -, s, hs, hq⟩ := mem_nextActive.1 hq
  exact hwf.edges_lt p s hs q (NfaState.mem_edges_of_mem_targets hq)

variable {sets : List (List Nat)}

/-- There are no more sets of states than subsets. -/
theorem length_le_of_stateSets (hnodup : sets.Nodup) (hsets : ∀ set ∈ sets, IsStateSet nfa set) :
    sets.length ≤ 2 ^ nfa.states.length := by
  have hinj : ∀ s ∈ sets, ∀ t ∈ sets, s.toFinset = t.toFinset → s = t := by
    intro s hs t ht heq
    have hs' := (hsets s hs).sorted
    have ht' := (hsets t ht).sorted
    have hperm := List.perm_of_nodup_nodup_toFinset_eq (hs'.imp Nat.ne_of_lt) (ht'.imp Nat.ne_of_lt) heq
    exact hperm.eq_of_pairwise (fun _ _ _ _ hab hba => absurd hba (Nat.lt_asymm hab)) hs' ht'
  have hmap : (sets.map List.toFinset).Nodup := hnodup.map_on hinj
  have hsub : (sets.map List.toFinset).toFinset ⊆ (range nfa.states.length).powerset := by
    intro F hF
    rw [List.mem_toFinset, List.mem_map] at hF
    obtain ⟨s, hs, rfl⟩ := hF
    rw [mem_powerset]
    intro q hq
    exact mem_range.2 ((hsets s hs).lt q (List.mem_toFinset.1 hq))
  calc sets.length = (sets.map List.toFinset).toFinset.card := by
        rw [List.toFinset_card_of_nodup hmap, List.length_map]
    _ ≤ (range nfa.states.length).powerset.card := card_le_card hsub
    _ = 2 ^ nfa.states.length := by rw [card_powerset, card_range]

/-! ### Invariant of the construction -/

/-- The set that a set of states leads to on a character, none if no state leads on. -/
def nextSet (nfa : Nfa) (set : List Nat) (c : Nat) : Option (List Nat) :=
  let nextNfa := nextActive nfa set (Char.ofNat c)
  if nextNfa.isEmpty then none else some (sortedSet (epsilonClosure nfa nextNfa))

/-- The cell of the table for a state and a character. -/
def cell (transitions : List (List (Option Nat))) (id c : Nat) : Option Nat :=
  (transitions.getD id []).getD c none

/-- A cell is as it should be: no entry for no set, the number of the set otherwise. -/
def CellOk (sets : List (List Nat)) (entry : Option Nat) (target : Option (List Nat)) : Prop :=
  entry.map (fun id => sets[id]?) = target.map some

/-- The construction has numbered `sets` in their order, finished the rows of the first `done` of them and, in
the row after these, the first `k` characters. -/
structure Built (nfa : Nfa) (b : Building) (sets : List (List Nat)) (done k : Nat) : Prop where
  ids : ∀ set id, b.stateMap.lookup set = some id ↔ sets[id]? = some set
  rows : b.transitions.length = sets.length
  rowLength : ∀ row ∈ b.transitions, row.length = asciiCount
  accepting : b.accepting = sets.map fun set => set.contains nfa.accept
  stateSets : ∀ set ∈ sets, IsStateSet nfa set
  filled : ∀ id set, sets[id]? = some set → ∀ c < asciiCount, id < done ∨ (id = done ∧ c < k) →
    CellOk sets (cell b.transitions id c) (nextSet nfa set c)
  unfilled : ∀ id c, ¬ (id < done ∨ (id = done ∧ c < k)) → cell b.transitions id c = none

theorem CellOk.append {entry : Option Nat} {target : Option (List Nat)} (h : CellOk sets entry target)
    (set : List Nat) : CellOk (sets ++ [set]) entry target := by
  rw [CellOk] at *
  cases entry with
  | none => exact h
  | some id =>
    cases target with
    | none => cases h
    | some t =>
      have hid : sets[id]? = some t := Option.some_inj.1 h
      have hlt : id < sets.length := (List.getElem?_eq_some_iff.1 hid).1
      show some (sets ++ [set])[id]? = some (some t)
      rw [List.getElem?_append_left hlt, hid]

theorem cell_append (transitions : List (List (Option Nat))) (id c : Nat) :
    cell (transitions ++ [List.replicate asciiCount none]) id c = cell transitions id c := by
  simp only [cell, List.getD_eq_getElem?_getD, getElem?_push]
  split
  · next hid =>
    rw [hid, List.getElem?_eq_none (le_refl _), Option.getD_some, List.getElem?_replicate]
    split <;> rfl
  · rfl

theorem lookup_addState (nfa : Nfa) (b : Building) (set set' : List Nat) : (b.addState nfa set).stateMap.lookup set'
      = if set' = set then some b.transitions.length else b.stateMap.lookup set' := by
  rw [Building.addState, List.lookup_cons]
  split
  · next h => rw [if_pos (beq_iff_eq.1 h)]
  · next h => rw [if_neg (beq_eq_false_iff_ne.1 h)]

theorem cell_modify {transitions : List (List (Option Nat))} {id₀ c₀ : Nat} (v : Nat)
    (hid : id₀ < transitions.length) (hc : ∀ row ∈ transitions, c₀ < row.length) (id c : Nat) :
    cell (transitions.modify id₀ fun row => row.set c₀ (some v)) id c
      = if id = id₀ ∧ c = c₀ then some v else cell transitions id c := by
  simp only [cell, List.getD_eq_getElem?_getD, List.getElem?_modify]
  by_cases hsame : id₀ = id
  · subst hsame
    have hrow : c₀ < (transitions[id₀]).length := hc _ (List.getElem_mem hid)
    rw [List.getElem?_eq_getElem hid]
    simp only [if_true, Option.map_eq_map, Option.map_some, Option.getD_some, List.getElem?_set, true_and]
    by_cases hchar : c₀ = c
    · subst hchar
      simp [hrow]
    · simp [hchar, Ne.symm hchar]
  · simp [hsame, Ne.symm hsame]

namespace Built

variable {nfa : Nfa} {b : Building} {sets : List (List Nat)} {done k : Nat}

theorem nodup (h : Built nfa b sets done k) : sets.Nodup := by
  rw [List.nodup_iff_injective_getElem]
  intro i j hij
  have hi := (h.ids (sets[i.val]) i.val).2 (List.getElem?_eq_getElem i.isLt)
  have hj := (h.ids (sets[j.val]) j.val).2 (List.getElem?_eq_getElem j.isLt)
  have heq : sets[i.val] = sets[j.val] := hij
  rw [heq] at hi
  exact Fin.ext (Option.some_inj.1 (hi.symm.trans hj))

theorem length_le (h : Built nfa b sets done k) : sets.length ≤ 2 ^ nfa.states.length :=
  length_le_of_stateSets h.nodup h.stateSets

variable {set : List Nat}

/-- A set that was not seen before gets the next number and an empty row. -/
theorem addState (h : Built nfa b sets done k) (hset : IsStateSet nfa set)
    (hnew : b.stateMap.lookup set = none) (hdone : done < sets.length ∨ (done = sets.length ∧ k = 0)) :
    Built nfa (b.addState nfa set) (sets ++ [set]) done k where
  ids := by
    intro set' id
    rw [lookup_addState, getElem?_push, h.rows]
    by_cases hset' : set' = set
    · subst hset'
      rw [if_pos rfl]
      split
      · next hid => exact iff_of_true (congrArg some hid.symm) rfl
      · next hid =>
        refine iff_of_false (fun heq => hid (Option.some_inj.1 heq).symm) fun hold => ?_
        rw [(h.ids set' id).2 hold] at hnew
        cases hnew
    · rw [if_neg hset', h.ids]
      split
      · next hid =>
        rw [hid, List.getElem?_eq_none (le_refl _)]
        exact iff_of_false nofun fun heq => hset' (Option.some_inj.1 heq).symm
      · exact Iff.rfl
  rows := by
    rw [Building.addState, List.length_append, List.length_append, h.rows]
    rfl
  rowLength := by
    intro row hrow
    rcases List.mem_append.1 hrow with hrow | hrow
    · exact h.rowLength row hrow
    · rw [List.mem_singleton.1 hrow]
      exact List.length_replicate
  accepting := by
    rw [Building.addState, List.map_append, h.accepting]
    rfl
  stateSets := by
    intro set' hset'
    rcases List.mem_append.1 hset' with hset' | hset'
    · exact h.stateSets set' hset'
    · exact List.mem_singleton.1 hset' ▸ hset
  filled := by
    intro id set' hid c hc hfilled
    have hlt : id < sets.length := by omega
    rw [List.getElem?_append_left hlt] at hid
    rw [Building.addState, cell_append]
    exact (h.filled id set' hid c hc hfilled).append set
  unfilled := by
    intro id c hfilled
    rw [Building.addState, cell_append]
    exact h.unfilled id c hfilled

/-- An entry is written into the row that is being worked on. -/
theorem setTransition (h : Built nfa b sets done k) {dfaSet target : List Nat} {v : Nat}
    (hdfaSet : sets[done]? = some dfaSet) (hk : k < asciiCount) (hv : sets[v]? = some target)
    (hnext : nextSet nfa dfaSet k = some target) : Built nfa (b.setTransition done k v) sets done (k + 1) := by
  have hdone : done < b.transitions.length := h.rows ▸ (List.getElem?_eq_some_iff.1 hdfaSet).1
  have hrow : ∀ row ∈ b.transitions, k < row.length := fun row hrow => h.rowLength row hrow ▸ hk
  refine ⟨h.ids, ?_, ?_, h.accepting, h.stateSets, ?_, ?_⟩
  · rw [Building.setTransition, List.length_modify]
    exact h.rows
  · intro row hmem
    obtain ⟨i, hi, rfl⟩ := List.mem_iff_getElem.1 hmem
    rw [Building.setTransition, List.length_modify] at hi
    simp only [Building.setTransition, List.getElem_modify]
    split
    · rw [List.length_set]
      exact h.rowLength _ (List.getElem_mem hi)
    · exact h.rowLength _ (List.getElem_mem hi)
  · intro id set hid c hc hfilled
    rw [Building.setTransition, cell_modify v hdone hrow]
    split
    · next hsame =>
      obtain ⟨rfl, rfl⟩ := hsame
      rw [hid] at hdfaSet
      rw [Option.some_inj.1 hdfaSet, hnext]
      exact congrArg some hv
    · next hother => exact h.filled id set hid c hc (by omega)
  · intro id c hfilled
    rw [Building.setTransition, cell_modify v hdone hrow, if_neg (by omega)]
    exact h.unfilled id c (by omega)

variable {dfaSet : List Nat}

theorem skip (h : Built nfa b sets done k) (hdfaSet : sets[done]? = some dfaSet)
    (hnext : nextSet nfa dfaSet k = none) : Built nfa b sets done (k + 1) := by
  refine ⟨h.ids, h.rows, h.rowLength, h.accepting, h.stateSets, ?_, ?_⟩
  · intro id set hid c hc hfilled
    by_cases hsame : id = done ∧ c = k
    · obtain ⟨rfl, rfl⟩ := hsame
      rw [hid] at hdfaSet
      rw [h.unfilled id c (by omega), Option.some_inj.1 hdfaSet, hnext]
      rfl
    · exact h.filled id set hid c hc (by omega)
  · intro id c hfilled
    exact h.unfilled id c (by omega)

/-- One character: one entry more, perhaps with a set that was not seen before. -/
theorem addTransition (hwf : nfa.WellFormed) (h : Built nfa b sets done k)
    (hdfaSet : sets[done]? = some dfaSet) (hk : k < asciiCount) (hwork : b.worklist = sets.drop (done + 1)) :
    ∃ new, Built nfa (Building.addTransition nfa dfaSet done b k) (sets ++ new) done (k + 1)
      ∧ (Building.addTransition nfa dfaSet done b k).worklist = (sets ++ new).drop (done + 1) := by
  have hdone : done < sets.length := (List.getElem?_eq_some_iff.1 hdfaSet).1
  rw [Building.addTransition]
  dsimp only
  by_cases hempty : (nextActive nfa dfaSet (Char.ofNat k)).isEmpty = true
  · rw [if_pos hempty]
    refine ⟨[], ?_, ?_⟩
    · rw [List.append_nil]
      exact h.skip hdfaSet (if_pos hempty)
    · rw [List.append_nil]
      exact hwork
  · rw [if_neg hempty]
    have hnext : nextSet nfa dfaSet k
        = some (sortedSet (epsilonClosure nfa (nextActive nfa dfaSet (Char.ofNat k)))) := if_neg hempty
    cases hlookup : b.stateMap.lookup
        (sortedSet (epsilonClosure nfa (nextActive nfa dfaSet (Char.ofNat k)))) with
    | some id =>
      refine ⟨[], ?_, ?_⟩
      · rw [List.append_nil]
        exact h.setTransition hdfaSet hk ((h.ids _ id).1 hlookup) hnext
      · rw [List.append_nil]
        exact hwork
    | none =>
      have hset : IsStateSet nfa (sortedSet (epsilonClosure nfa (nextActive nfa dfaSet (Char.ofNat k)))) :=
        sortedSet_epsilonClosure hwf fun q hq => nextActive_lt hwf hq
      have hadded := h.addState hset hlookup (.inl hdone)
      refine ⟨_, hadded.setTransition ?_ hk ?_ hnext, ?_⟩
      · rw [List.getElem?_append_left hdone]
        exact hdfaSet
      · rw [h.rows, List.getElem?_concat_length]
      · show b.worklist ++ [_] = _
        rw [hwork, List.drop_append_of_le_length hdone]

/-- One row: after all characters the row is final. -/
theorem foldl_addTransition (hwf : nfa.WellFormed) (h : Built nfa b sets done 0)
    (hdfaSet : sets[done]? = some dfaSet) (hwork : b.worklist = sets.drop (done + 1)) (hk : k ≤ asciiCount) :
    ∃ new, Built nfa ((List.range k).foldl (Building.addTransition nfa dfaSet done) b) (sets ++ new) done k
      ∧ ((List.range k).foldl (Building.addTransition nfa dfaSet done) b).worklist = (sets ++ new).drop (done + 1) := by
  induction k with
  | zero =>
    refine ⟨[], ?_, ?_⟩
    · rw [List.append_nil]
      exact h
    · rw [List.append_nil]
      exact hwork
  | succ k ih =>
    obtain ⟨new, hbuilt, hworklist⟩ := ih (Nat.le_of_succ_le hk)
    have hdone : done < sets.length := (List.getElem?_eq_some_iff.1 hdfaSet).1
    have hdfaSet' : (sets ++ new)[done]? = some dfaSet := by
      rw [List.getElem?_append_left hdone]
      exact hdfaSet
    obtain ⟨new', hbuilt', hworklist'⟩ := hbuilt.addTransition hwf hdfaSet' hk hworklist
    rw [List.range_succ, List.foldl_append, List.foldl_cons, List.foldl_nil]
    rw [List.append_assoc] at hbuilt' hworklist'
    exact ⟨new ++ new', hbuilt', hworklist'⟩

theorem next (h : Built nfa b sets done asciiCount) : Built nfa b sets (done + 1) 0 where
  ids := h.ids
  rows := h.rows
  rowLength := h.rowLength
  accepting := h.accepting
  stateSets := h.stateSets
  filled := by
    intro id set hid c hc hfilled
    exact h.filled id set hid c hc (by omega)
  unfilled := by
    intro id c hfilled
    by_cases hc : c < asciiCount
    · exact h.unfilled id c (by omega)
    · -- a row has no entries beyond the characters
      simp only [cell, List.getD_eq_getElem?_getD]
      by_cases hid : id < b.transitions.length
      · have hlength := h.rowLength _ (List.getElem_mem hid)
        rw [List.getElem?_eq_getElem hid, Option.getD_some, List.getElem?_eq_none (by omega)]
        rfl
      · rw [List.getElem?_eq_none (Nat.not_lt.1 hid)]
        rfl

/-- The worklist loop ends, since every round is about another set, and all rows are final then. -/
theorem loop (hwf : nfa.WellFormed) {fuel : Nat} (h : Built nfa b sets done 0) (hdone : done ≤ sets.length)
    (hwork : b.worklist = sets.drop done) (hfuel : 2 ^ nfa.states.length < done + fuel) :
    ∃ b' new, Building.loop nfa fuel b = some b' ∧ Built nfa b' (sets ++ new) (sets ++ new).length 0 := by
  induction fuel generalizing b sets done with
  | zero =>
    have hle := h.length_le
    omega
  | succ fuel ih =>
    rw [Building.loop]
    rcases Nat.lt_or_ge done sets.length with hlt | hge
    · rw [hwork, List.drop_eq_getElem_cons hlt]
      have hdfaSet : sets[done]? = some sets[done] := List.getElem?_eq_getElem hlt
      dsimp only
      rw [(h.ids _ done).2 hdfaSet]
      dsimp only
      have hstart : Built nfa { b with worklist := sets.drop (done + 1) } sets done 0 :=
        ⟨h.ids, h.rows, h.rowLength, h.accepting, h.stateSets, h.filled, h.unfilled⟩
      obtain ⟨new, hbuilt, hworklist⟩ := hstart.foldl_addTransition hwf hdfaSet rfl (le_refl asciiCount)
      have hle : done + 1 ≤ (sets ++ new).length := by
        rw [List.length_append]
        omega
      obtain ⟨b', new', hloop, hfinal⟩ := ih hbuilt.next hle hworklist (by omega)
      rw [List.append_assoc] at hfinal
      exact ⟨b', new ++ new', hloop, hfinal⟩
    · obtain rfl : done = sets.length := Nat.le_antisymm hdone hge
      rw [hwork, List.drop_length]
      exact ⟨b, [], rfl, by rw [List.append_nil]; exact h⟩

theorem initial (hwf : nfa.WellFormed) :
    Built nfa (Building.initial nfa) [sortedSet (epsilonClosure nfa [nfa.start])] 0 0 := by
  have hempty : Built nfa ⟨[], [], [], []⟩ [] 0 0 := by
    refine ⟨fun set id => iff_of_false nofun nofun, rfl, nofun, rfl, nofun, nofun, fun id c _ => rfl⟩
  refine hempty.addState (sortedSet_epsilonClosure hwf ?_) rfl (.inr ⟨rfl, rfl⟩)
  intro q hq
  rw [List.mem_singleton.1 hq]
  exact hwf.start_lt

/-- A row is the step of the automaton: without an entry no state is active, and an entry is the number of
the set of the states that are active next. -/
theorem cell_spec (h : Built nfa b sets sets.length 0) {id : Nat} (hid : sets[id]? = some set) {A : Set Nat}
    (hA : ∀ q, q ∈ set ↔ q ∈ A) {c : Char} (hc : c.toNat < asciiCount) :
    (cell b.transitions id c.toNat = none ∧ nfa.automaton.stepSet A c = ∅)
      ∨ ∃ next set', cell b.transitions id c.toNat = some next ∧ sets[next]? = some set'
        ∧ ∀ q, q ∈ set' ↔ q ∈ nfa.automaton.stepSet A c := by
  have hlt : id < sets.length := (List.getElem?_eq_some_iff.1 hid).1
  have hcell := h.filled id set hid c.toNat hc (.inl hlt)
  rw [CellOk, nextSet, Char.ofNat_toNat] at hcell
  split at hcell
  · next hempty =>
    refine .inl ⟨Option.map_eq_none_iff.1 hcell, Set.eq_empty_of_forall_notMem fun q hq => ?_⟩
    rw [← mem_closure_nextActive hA, List.isEmpty_iff.1 hempty, mem_epsilonClosure] at hq
    have hnone : {p : Nat | p ∈ ([] : List Nat)} = ∅ := Set.eq_empty_of_forall_notMem fun p => List.not_mem_nil
    rw [hnone, εNFA.εClosure_empty] at hq
    exact Set.notMem_empty q hq
  · obtain ⟨next, hnext, hset'⟩ := Option.map_eq_some_iff.1 hcell
    refine .inr ⟨next, _, hnext, hset', fun q => ?_⟩
    rw [mem_sortedSet, mem_closure_nextActive hA]

/-- The table follows the automaton. -/
theorem isMatchFrom (h : Built nfa b sets sets.length 0) (start : Nat) {text : List Char}
    (hascii : ∀ c ∈ text, c.toNat < asciiCount) {id : Nat} (hid : sets[id]? = some set) {A : Set Nat}
    (hA : ∀ q, q ∈ set ↔ q ∈ A) : Dfa.isMatchFrom ⟨b.transitions, b.accepting, start⟩ id text = true
      ↔ nfa.accept ∈ text.foldl nfa.automaton.stepSet A := by
  induction text generalizing id set A with
  | nil =>
    rw [Dfa.isMatchFrom, List.getD_eq_getElem?_getD, h.accepting, List.getElem?_map, hid]
    exact List.contains_iff_mem.trans (hA nfa.accept)
  | cons c text ih =>
    have hc := hascii c List.mem_cons_self
    have htext : ∀ d ∈ text, d.toNat < asciiCount := fun d hd => hascii d (List.mem_cons_of_mem c hd)
    rw [Dfa.isMatchFrom, if_neg (Nat.not_le.2 hc), List.foldl_cons]
    rcases h.cell_spec hid hA hc with ⟨hcell, hdead⟩ | ⟨next, set', hcell, hset', hA'⟩
    · rw [cell] at hcell
      rw [hcell, hdead]
      refine iff_of_false Bool.false_ne_true fun hmem => ?_
      have hempty := nfa.automaton.evalFrom_empty text
      rw [εNFA.evalFrom, εNFA.εClosure_empty] at hempty
      rw [hempty] at hmem
      exact Set.notMem_empty _ hmem
    · rw [cell] at hcell
      rw [hcell]
      exact ih htext hset' hA'

end Built

/-! ### Correctness -/

theorem Dfa.isMatchFrom_of_not_ascii (dfa : Dfa) (state : Nat) {text : List Char}
    (h : ∃ c ∈ text, asciiCount ≤ c.toNat) : dfa.isMatchFrom state text = false := by
  induction text generalizing state with
  | nil =>
    obtain ⟨c, hc, -⟩ := h
    cases hc
  | cons c text ih =>
    rw [isMatchFrom]
    split
    · rfl
    · next hascii =>
      obtain ⟨d, hd, hbeyond⟩ := h
      have htext : ∃ c ∈ text, asciiCount ≤ c.toNat := by
        rcases List.mem_cons.1 hd with rfl | hd
        · exact absurd hbeyond hascii
        · exact ⟨d, hd, hbeyond⟩
      split
      · rfl
      · exact ih _ htext

theorem Dfa.fromNfa_built (hwf : nfa.WellFormed) :
    ∃ b sets, Dfa.fromNfa nfa = some ⟨b.transitions, b.accepting, 0⟩ ∧ Built nfa b sets sets.length 0
      ∧ sets[0]? = some (sortedSet (epsilonClosure nfa [nfa.start])) := by
  obtain ⟨b, new, hloop, hbuilt⟩ := (Built.initial hwf).loop hwf (Nat.zero_le _) rfl
    (by rw [Nat.zero_add]; exact Nat.lt_succ_self _)
  refine ⟨b, _, ?_, hbuilt, rfl⟩
  rw [Dfa.fromNfa, hloop]
  rfl

theorem Built.isMatchFull {b : Building} (h : Built nfa b sets sets.length 0)
    (hstart : sets[0]? = some (sortedSet (epsilonClosure nfa [nfa.start]))) {text : List Char}
    (hascii : ∀ c ∈ text, c.toNat < asciiCount) :
    Dfa.isMatchFull ⟨b.transitions, b.accepting, 0⟩ text = simulateFrom nfa text 0 true := by
  have hA : ∀ q, q ∈ sortedSet (epsilonClosure nfa [nfa.start]) ↔ q ∈ nfa.automaton.eval [] :=
    fun q => mem_sortedSet.trans (mem_closure_start q)
  rw [Bool.eq_iff_iff, Dfa.isMatchFull, h.isMatchFrom 0 hascii hstart hA, ← mem_activeAfter mem_closure_start,
    simulateFrom, simulateFromLoop_eq, List.contains_iff_mem, List.drop_zero]

/-- **Subset construction**: the construction of a well-formed automaton ends, with no more states than the
automaton has sets of states, and its table answers for every ASCII text what the run over the whole text
answers. -/
theorem subset_construction_correct {nfa : Nfa} (hwf : nfa.WellFormed) :
    ∃ dfa, Dfa.fromNfa nfa = some dfa ∧ dfa.stateCount ≤ 2 ^ nfa.states.length
      ∧ ∀ text : List Char, (∀ c ∈ text, c.toNat < asciiCount) →
        dfa.isMatchFull text = simulateFrom nfa text 0 true := by
  obtain ⟨b, sets, hdfa, hbuilt, hstart⟩ := Dfa.fromNfa_built hwf
  refine ⟨_, hdfa, ?_, fun text hascii => hbuilt.isMatchFull hstart hascii⟩
  exact hbuilt.rows.trans_le hbuilt.length_le

/-- The automaton of `ab*` is well formed; its table has two states. -/
theorem subset_construction_ab_star :
    (Dfa.fromNfa (compile (.concat (.literal 'a') (.star (.literal 'b'))))).map Dfa.stateCount = some 2
      ∧ ∃ dfa, Dfa.fromNfa (compile (.concat (.literal 'a') (.star (.literal 'b')))) = some dfa
        ∧ dfa.isMatchFull ['a', 'b', 'b'] = true := by
  refine ⟨by rfl, ?_⟩
  obtain ⟨dfa, hdfa, -, hmatch⟩ :=
    subset_construction_correct (compile_wellFormed (.concat (.literal 'a') (.star (.literal 'b'))))
  refine ⟨dfa, hdfa, ?_⟩
  have hascii : ['a', 'b', 'b'].all (fun c => c.toNat < asciiCount) = true := by decide
  rw [hmatch _ fun c hc => of_decide_eq_true (List.all_eq_true.1 hascii c hc)]
  rfl

end SystemDesignLabs.RegexEngine

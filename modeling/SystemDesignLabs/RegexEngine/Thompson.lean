import SystemDesignLabs.Core.Cells
import SystemDesignLabs.Core.Splice
import SystemDesignLabs.RegexEngine.Parser

/-!
# Thompson's construction

`compile` of `v0.rs` and its correctness. The fragments of an expression share one array of states; an edge
to state 0 is an open one, and `patch` closes the open edges of a list of states. `Compiled` says what a
fragment is: its own part of the array, whose edges stay in that part or are open, with the states of its
dangling list as those with open edges. Since state 0 has no edges, the words of a fragment are those that
lead from its start to state 0, and closing its open edges splices it (`Compiled.spliced`).
-/

namespace SystemDesignLabs.RegexEngine

open Option (map_eq_some_iff some_inj)

open Computability Core

/-! ### The compiler -/

/-- An NFA fragment: its start, and the states with edges that are to be closed. -/
structure Fragment where
  start : Nat
  dangling : List Nat
  deriving DecidableEq, Repr

/-- An edge to state 0 is closed. -/
def closeEdge (target next : Nat) : Nat :=
  if next = 0 then target else next

/-- What `patch` does to one state. -/
def NfaState.fill (target : Nat) : NfaState → NfaState
  | .literal matcher next => .literal matcher (closeEdge target next)
  | .split next1 next2 => .split (closeEdge target next1) (closeEdge target next2)
  | s => s

def patch (ids : List Nat) (target : Nat) (states : List NfaState) : List NfaState :=
  ids.foldl (fun states id => states.modify id (NfaState.fill target)) states

/-- The fragment of a single state, with all edges open. -/
def single (states : List NfaState) (s : NfaState) : Fragment × List NfaState :=
  (⟨states.length, [states.length]⟩, states ++ [s])

/-- `compile_ast` on the array of states. -/
def compileAst : Ast → List NfaState → Fragment × List NfaState
  | .literal c, states => single states (.literal (.exact c) 0)
  | .anyChar, states => single states (.literal .anyExceptNewline 0)
  | .cls ranges negated, states => single states (.literal (.cls ranges negated) 0)
  | .startAnchor, states => single states (.split 0 0)
  | .endAnchor, states => single states (.split 0 0)
  | .concat left right, states =>
    let (lf, states) := compileAst left states
    let (rf, states) := compileAst right states
    (⟨lf.start, rf.dangling⟩, patch lf.dangling rf.start states)
  | .alternation left right, states =>
    let (lf, states) := compileAst left states
    let (rf, states) := compileAst right states
    (⟨states.length, lf.dangling ++ rf.dangling⟩, states ++ [.split lf.start rf.start])
  | .star inner, states =>
    let (frag, states) := compileAst inner states
    let split := states.length
    (⟨split, [split]⟩, patch frag.dangling split (states ++ [.split frag.start 0]))
  | .plus inner, states =>
    let (frag, states) := compileAst inner states
    let split := states.length
    (⟨frag.start, [split]⟩, patch frag.dangling split (states ++ [.split frag.start 0]))
  | .question inner, states =>
    let (frag, states) := compileAst inner states
    let split := states.length
    (⟨split, frag.dangling ++ [split]⟩, states ++ [.split frag.start 0])

def compile (ast : Ast) : Nfa :=
  let nfa := Nfa.new
  let (frag, states) := compileAst ast nfa.states
  ⟨patch frag.dangling nfa.accept states, frag.start, nfa.accept⟩

/-! ### Edges -/

namespace NfaState

/-- All edges of a state. -/
def edges : NfaState → List Nat
  | .literal _ next => [next]
  | .split next1 next2 => [next1, next2]
  | _ => []

/-- The edges that a state offers on a character, or without one. -/
def targets : NfaState → Option Char → List Nat
  | .literal matcher next, some c => if matcher.matchesChar c then [next] else []
  | .split next1 next2, none => [next1, next2]
  | _, _ => []

variable {s : NfaState} {a : Option Char} {p q t : Nat}

theorem mem_edges_of_mem_targets (h : q ∈ s.targets a) : q ∈ s.edges := by
  cases s with
  | literal matcher next =>
    cases a with
    | none => cases h
    | some c =>
      rw [targets] at h
      split at h
      · exact h
      · cases h
  | split next1 next2 =>
    cases a with
    | none => exact h
    | some c => cases h
  | accepting => cases h
  | dead => cases h

theorem targets_fill : (s.fill t).targets a = (s.targets a).map (closeEdge t) := by
  cases s with
  | literal matcher next =>
    cases a with
    | none => rfl
    | some c =>
      rw [fill, targets, targets]
      split <;> rfl
  | split next1 next2 => cases a <;> rfl
  | accepting => rfl
  | dead => rfl

theorem edges_fill : (s.fill t).edges = s.edges.map (closeEdge t) := by
  cases s <;> rfl

theorem closeEdge_of_ne (h : q ≠ 0) : closeEdge t q = q := if_neg h

theorem closeEdge_zero : closeEdge 0 q = q := by
  rw [closeEdge]
  split
  · exact (‹q = 0›).symm
  · rfl

theorem fill_of_notMem (h : 0 ∉ s.edges) : s.fill t = s := by
  cases s with
  | literal matcher next =>
    have hnext : next ≠ 0 := fun h0 => h (List.mem_singleton.2 h0.symm)
    rw [fill, closeEdge_of_ne hnext]
  | split next1 next2 =>
    have hne : next1 ≠ 0 ∧ next2 ≠ 0 := by
      constructor
      · exact fun h0 => h (List.mem_pair.2 (.inl h0.symm))
      · exact fun h0 => h (List.mem_pair.2 (.inr h0.symm))
    rw [fill, closeEdge_of_ne hne.1, closeEdge_of_ne hne.2]
  | accepting => rfl
  | dead => rfl

theorem fill_zero (s : NfaState) : s.fill 0 = s := by
  cases s with
  | literal matcher next => rw [fill, closeEdge_zero]
  | split next1 next2 => rw [fill, closeEdge_zero, closeEdge_zero]
  | accepting => rfl
  | dead => rfl

theorem mem_edges_fill (h : q ∈ (s.fill t).edges) : q = t ∨ (q ≠ 0 ∧ q ∈ s.edges) := by
  rw [edges_fill] at h
  obtain ⟨q₀, hq₀, rfl⟩ := List.mem_map.1 h
  by_cases hopen : q₀ = 0
  · exact .inl (if_pos hopen)
  · rw [closeEdge_of_ne hopen]
    exact .inr ⟨hopen, hq₀⟩

theorem zero_notMem_edges_fill (ht : t ≠ 0) : 0 ∉ (s.fill t).edges := by
  intro h
  rcases mem_edges_fill h with h0 | ⟨hne, -⟩
  · exact ht h0.symm
  · exact hne rfl

theorem fill_fill (ht : t ≠ 0) : (s.fill t).fill t = s.fill t :=
  fill_of_notMem (zero_notMem_edges_fill ht)

end NfaState

/-- The automaton of an array of states. -/
def automaton (states : List NfaState) (start accept : Nat) : εNFA Char Nat where
  step p a := {q | ∃ s, states[p]? = some s ∧ q ∈ s.targets a}
  start := {start}
  accept := {accept}

/-- The words that lead from one state of an array to another. -/
abbrev wordsTo (states : List NfaState) (p q : Nat) : Language Char :=
  pathLanguage (automaton states 0 0) p q

theorem patch_getElem? {ids : List Nat} {t : Nat} (ht : t ≠ 0) (states : List NfaState)
    (p : Nat) : (patch ids t states)[p]? = if p ∈ ids then (states[p]?).map (NfaState.fill t) else states[p]? := by
  induction ids generalizing states with
  | nil => exact (if_neg List.not_mem_nil).symm
  | cons id ids ih =>
    rw [patch, List.foldl_cons]
    show (patch ids t (states.modify id (NfaState.fill t)))[p]? = _
    rw [ih, List.getElem?_modify]
    by_cases hid : id = p
    · subst hid
      rw [if_pos List.mem_cons_self]
      cases states[id]? with
      | none => simp
      | some s =>
        -- listed twice, an edge is closed once
        simp [NfaState.fill_fill ht]
    · have hmem : p ∈ id :: ids ↔ p ∈ ids := by
        rw [List.mem_cons, or_iff_right (Ne.symm hid)]
      cases states[p]? with
      | none => simp
      | some s => simp [hid, hmem]

theorem patch_length (ids : List Nat) (t : Nat) (states : List NfaState) :
    (patch ids t states).length = states.length := by
  induction ids generalizing states with
  | nil => rfl
  | cons id ids ih =>
    rw [patch, List.foldl_cons]
    show (patch ids t _).length = _
    rw [ih, List.length_modify]

/-! ### Fragments -/

/-- Every array starts with the placeholder, which no edge leaves. -/
def HasPlaceholder (states : List NfaState) : Prop :=
  states[0]? = some .dead

/-- `frag` was compiled onto the end of `states`, giving `states'`, and its open edges are reached by the words
of `L`. -/
structure Compiled (states states' : List NfaState) (frag : Fragment) (L : Language Char) : Prop where
  before : ∀ p < states.length, states'[p]? = states[p]?
  start : frag.start ∈ Set.Ico states.length states'.length
  closed : ∀ p, states.length ≤ p → ∀ s, states'[p]? = some s →
    ∀ q ∈ s.edges, q = 0 ∨ q ∈ Set.Ico states.length states'.length
  dangling : ∀ p, p ∈ frag.dangling ↔ states.length ≤ p ∧ ∃ s, states'[p]? = some s ∧ 0 ∈ s.edges
  language : wordsTo states' frag.start 0 = L

variable {states : List NfaState}

section

variable (h : HasPlaceholder states)
include h

theorem HasPlaceholder.length_pos : 0 < states.length :=
  (List.getElem?_eq_some_iff.1 h).1

theorem HasPlaceholder.dead (start accept : Nat) (a : Option Char) :
    (automaton states start accept).step 0 a = ∅ := by
  refine Set.eq_empty_of_forall_notMem ?_
  rintro q ⟨s, hs, hq⟩
  have hdead : NfaState.dead = s := some_inj.1 (h.symm.trans hs)
  subst hdead
  cases hq

theorem HasPlaceholder.wordsTo_zero : wordsTo states 0 0 = 1 :=
  pathLanguage_dead (h.dead 0 0)

end

namespace Compiled

variable {states states' final : List NfaState} {frag : Fragment} {L : Language Char} {t p : Nat}

section

variable (h : Compiled states states' frag L)
include h

theorem length_lt : states.length < states'.length :=
  Nat.lt_of_le_of_lt h.start.1 h.start.2

theorem placeholder (h0 : HasPlaceholder states) : HasPlaceholder states' :=
  (h.before 0 h0.length_pos).trans h0

theorem dangling_mem (hp : p ∈ frag.dangling) :
    p ∈ Set.Ico states.length states'.length := by
  obtain ⟨hle, s, hs, -⟩ := (h.dangling p).1 hp
  exact ⟨hle, (List.getElem?_eq_some_iff.1 hs).1⟩

section

variable (h0 : HasPlaceholder states)
include h0

/-- Closing the open edges of a fragment splices it. With `t = 0` the fragment is as it was. -/
theorem spliced
    (hfinal : ∀ p ∈ Set.Ico states.length states'.length, final[p]? = (states'[p]?).map (NfaState.fill t)) :
    Spliced (automaton states' 0 0) (automaton final 0 0) (Set.Ico states.length states'.length) 0 t where
  closed := by
    rintro p hp a q ⟨s, hs, hq⟩
    exact h.closed p hp.1 s hs q (NfaState.mem_edges_of_mem_targets hq)
  exit_notMem := fun hmem => absurd h0.length_pos (Nat.not_lt.2 hmem.1)
  dead := (h.placeholder h0).dead 0 0
  kept := by
    rintro p hp a q ⟨s, hs, hq⟩ hne
    refine ⟨s.fill t, by rw [hfinal p hp, hs]; rfl, ?_⟩
    rw [NfaState.targets_fill, List.mem_map]
    exact ⟨q, hq, NfaState.closeEdge_of_ne hne⟩
  redirected := by
    rintro p hp a ⟨s, hs, hq⟩
    refine ⟨s.fill t, by rw [hfinal p hp, hs]; rfl, ?_⟩
    rw [NfaState.targets_fill, List.mem_map]
    exact ⟨0, hq, if_pos rfl⟩
  only := by
    rintro p hp a q ⟨s', hs', hq⟩
    rw [hfinal p hp] at hs'
    obtain ⟨s, hs, rfl⟩ := Option.map_eq_some_iff.1 hs'
    rw [NfaState.targets_fill] at hq
    obtain ⟨q₀, hq₀, rfl⟩ := List.mem_map.1 hq
    by_cases hopen : q₀ = 0
    · subst hopen
      exact .inr ⟨if_pos rfl, s, hs, hq₀⟩
    · rw [NfaState.closeEdge_of_ne hopen]
      exact .inl ⟨hopen, s, hs, hq₀⟩

theorem wordsTo_kept (hfinal0 : HasPlaceholder final)
    (hfinal : ∀ p ∈ Set.Ico states.length states'.length, final[p]? = states'[p]?) :
    wordsTo final frag.start 0 = L := by
  have hspliced := @spliced states states' final frag L 0 h h0 fun p hp => by
    rw [hfinal p hp]
    cases states'[p]? with
    | none => rfl
    | some s => exact congrArg some s.fill_zero.symm
  rw [wordsTo, hspliced.pathLanguage_exit (hfinal0.dead 0 0) h.start]
  exact h.language

theorem wordsTo_filled {r : Nat}
    (hr : r ∉ Set.Ico states.length states'.length)
    (hfinal : ∀ p ∈ Set.Ico states.length states'.length, final[p]? = (states'[p]?).map (NfaState.fill t)) :
    wordsTo final frag.start r = L * wordsTo final t r := by
  rw [wordsTo, (h.spliced h0 hfinal).pathLanguage_eq h.start hr]
  exact congrArg (· * _) h.language

end

/-- `patch` closes all open edges of the fragment whose list it is given. -/
theorem patch_mem (ht : t ≠ 0) {extended : List NfaState}
    (hext : ∀ p < states'.length, extended[p]? = states'[p]?) (hp : p ∈ Set.Ico states.length states'.length) :
    (patch frag.dangling t extended)[p]? = (states'[p]?).map (NfaState.fill t) := by
  rw [patch_getElem? ht, hext p hp.2]
  split
  · rfl
  · -- a state that is not in the list has no open edge
    cases hs : states'[p]? with
    | none => rfl
    | some s =>
      have hclosed : 0 ∉ s.edges := fun hopen => ‹p ∉ frag.dangling› ((h.dangling p).2 ⟨hp.1, s, hs, hopen⟩)
      exact congrArg some (NfaState.fill_of_notMem hclosed).symm

theorem patch_notMem (ht : t ≠ 0) {extended : List NfaState}
    (hp : p ∉ Set.Ico states.length states'.length) : (patch frag.dangling t extended)[p]? = extended[p]? := by
  rw [patch_getElem? ht, if_neg fun hmem => hp (h.dangling_mem hmem)]

end

end Compiled

/-! ### Correctness of the construction -/

theorem wordsTo_split {p q₁ q₂ r : Nat} (hp : states[p]? = some (.split q₁ q₂)) (hne : p ≠ r) :
    wordsTo states p r = wordsTo states q₁ r + wordsTo states q₂ r := by
  refine pathLanguage_choice hne ?_ ?_
  · intro q
    constructor
    · rintro ⟨s, hs, hq⟩
      obtain rfl := some_inj.1 (hp.symm.trans hs)
      exact List.mem_pair.1 hq
    · exact fun hq => ⟨_, hp, List.mem_pair.2 hq⟩
  · intro a
    refine Set.eq_empty_of_forall_notMem ?_
    rintro q ⟨s, hs, hq⟩
    obtain rfl := some_inj.1 (hp.symm.trans hs)
    cases hq

theorem wordsTo_literal (h0 : HasPlaceholder states) {p : Nat} {matcher : CharMatcher}
    (hp : states[p]? = some (.literal matcher 0)) :
    wordsTo states p 0 = oneChar fun c => matcher.matchesChar c = true := by
  have hne : p ≠ 0 := by
    rintro rfl
    cases h0.symm.trans hp
  refine pathLanguage_symbol hne (h0.dead 0 0) ?_ ?_
  · refine Set.eq_empty_of_forall_notMem ?_
    rintro q ⟨s, hs, hq⟩
    obtain rfl := some_inj.1 (hp.symm.trans hs)
    cases hq
  · intro c q
    constructor
    · rintro ⟨s, hs, hq⟩
      obtain rfl := some_inj.1 (hp.symm.trans hs)
      rw [NfaState.targets] at hq
      split at hq
      · next hmatch => exact ⟨hmatch, List.mem_singleton.1 hq⟩
      · cases hq
    · rintro ⟨hmatch, rfl⟩
      exact ⟨_, hp, by rw [NfaState.targets, if_pos hmatch]; exact List.mem_singleton_self 0⟩

namespace Compiled

variable {states states₁ states₂ : List NfaState} {frag lf rf : Fragment} {L L₁ L₂ L' : Language Char}

theorem single {s : NfaState} (hopen : ∀ q, q ∈ s.edges ↔ q = 0) (hL : wordsTo (states ++ [s]) states.length 0 = L) :
    Compiled states (states ++ [s]) ⟨states.length, [states.length]⟩ L where
  before := fun p hp => getElem?_push_of_lt hp
  start := ⟨le_refl _, by rw [List.length_append]; exact Nat.lt_succ_self _⟩
  closed := by
    intro p hp s' hs' q hq
    rw [getElem?_push] at hs'
    split at hs'
    · obtain rfl := Option.some_inj.1 hs'
      exact .inl ((hopen q).1 hq)
    · rw [List.getElem?_eq_none hp] at hs'
      cases hs'
  dangling := by
    intro p
    rw [List.mem_singleton]
    constructor
    · rintro rfl
      exact ⟨le_refl _, s, List.getElem?_concat_length, (hopen 0).2 rfl⟩
    · rintro ⟨hp, s', hs', -⟩
      by_contra hne
      rw [getElem?_push, if_neg hne, List.getElem?_eq_none hp] at hs'
      cases hs'
  language := hL

section

variable (h0 : HasPlaceholder states)
include h0

/-- Concatenation: the open edges of the left fragment lead to the right one. -/
theorem concat (hl : Compiled states states₁ lf L₁) (hr : Compiled states₁ states₂ rf L₂) :
    Compiled states (patch lf.dangling rf.start states₂) ⟨lf.start, rf.dangling⟩ (L₁ * L₂) := by
  have h1 := hl.placeholder h0
  have hlt := hl.length_lt
  have hlt' := hr.length_lt
  have hne : rf.start ≠ 0 := Nat.ne_of_gt (Nat.lt_of_lt_of_le h1.length_pos hr.start.1)
  have hleft : ∀ p ∈ Set.Ico states.length states₁.length,
      (patch lf.dangling rf.start states₂)[p]? = (states₁[p]?).map (NfaState.fill rf.start) :=
    fun p hp => hl.patch_mem hne hr.before hp
  have hother : ∀ p ∉ Set.Ico states.length states₁.length,
      (patch lf.dangling rf.start states₂)[p]? = states₂[p]? :=
    fun p hp => hl.patch_notMem hne hp
  have hright : ∀ p, states₁.length ≤ p → (patch lf.dangling rf.start states₂)[p]? = states₂[p]? :=
    fun p hp => hother p fun hmem => absurd hmem.2 (Nat.not_lt.2 hp)
  have hold : ∀ p < states.length, (patch lf.dangling rf.start states₂)[p]? = states[p]? := by
    intro p hp
    rw [hother p fun hmem => absurd hp (Nat.not_lt.2 hmem.1), hr.before p (hp.trans hlt), hl.before p hp]
  have hfinal0 : HasPlaceholder (patch lf.dangling rf.start states₂) := (hold 0 h0.length_pos).trans h0
  refine ⟨hold, ?_, ?_, ?_, ?_⟩
  · rw [patch_length]
    exact ⟨hl.start.1, hl.start.2.trans hlt'⟩
  · intro p hp s hs q hq
    rw [patch_length]
    by_cases hside : p < states₁.length
    · rw [hleft p ⟨hp, hside⟩] at hs
      obtain ⟨s₀, hs₀, rfl⟩ := map_eq_some_iff.1 hs
      rcases NfaState.mem_edges_fill hq with rfl | ⟨hq0, hq⟩
      · exact .inr ⟨hlt.le.trans hr.start.1, hr.start.2⟩
      · have hregion := (hl.closed p hp s₀ hs₀ q hq).resolve_left hq0
        exact .inr ⟨hregion.1, hregion.2.trans hlt'⟩
    · rw [hright p (Nat.not_lt.1 hside)] at hs
      rcases hr.closed p (Nat.not_lt.1 hside) s hs q hq with hq0 | hregion
      · exact .inl hq0
      · exact .inr ⟨hlt.le.trans hregion.1, hregion.2⟩
  · intro p
    rw [hr.dangling p]
    constructor
    · rintro ⟨hp, s, hs, hzero⟩
      exact ⟨hlt.le.trans hp, s, by rw [hright p hp]; exact hs, hzero⟩
    · rintro ⟨hp, s, hs, hzero⟩
      by_cases hside : p < states₁.length
      · -- the left fragment has no open edges left
        rw [hleft p ⟨hp, hside⟩] at hs
        obtain ⟨s₀, -, rfl⟩ := map_eq_some_iff.1 hs
        exact absurd hzero (NfaState.zero_notMem_edges_fill hne)
      · rw [hright p (Nat.not_lt.1 hside)] at hs
        exact ⟨Nat.not_lt.1 hside, s, hs, hzero⟩
  · have hzero : 0 ∉ Set.Ico states.length states₁.length :=
      fun hmem => absurd h0.length_pos (Nat.not_lt.2 hmem.1)
    rw [hl.wordsTo_filled h0 hzero hleft, hr.wordsTo_kept h1 hfinal0 fun p hp => hright p hp.1]

/-- Alternation: a split state in front of both fragments. -/
theorem alternation (hl : Compiled states states₁ lf L₁)
    (hr : Compiled states₁ states₂ rf L₂) :
    Compiled states (states₂ ++ [.split lf.start rf.start]) ⟨states₂.length, lf.dangling ++ rf.dangling⟩ (L₁ + L₂) := by
  have h1 := hl.placeholder h0
  have hlt := hl.length_lt
  have hlt' := hr.length_lt
  have hlength : (states₂ ++ [NfaState.split lf.start rf.start]).length = states₂.length + 1 :=
    List.length_append
  have hnew : (states₂ ++ [NfaState.split lf.start rf.start])[states₂.length]?
      = some (.split lf.start rf.start) := List.getElem?_concat_length
  have hleft : ∀ p < states₁.length,
      (states₂ ++ [NfaState.split lf.start rf.start])[p]? = states₁[p]? := by
    intro p hp
    rw [getElem?_push_of_lt (hp.trans hlt'), hr.before p hp]
  have hpos := h0.length_pos
  have hfinal0 : HasPlaceholder (states₂ ++ [NfaState.split lf.start rf.start]) :=
    (hleft 0 h1.length_pos).trans h1
  have hstart₁ := hl.start
  have hstart₂ := hr.start
  rw [Set.mem_Ico] at hstart₁ hstart₂
  refine ⟨?_, ?_, ?_, ?_, ?_⟩
  · intro p hp
    rw [hleft p (hp.trans hlt), hl.before p hp]
  · rw [hlength]
    exact ⟨(hlt.trans hlt').le, Nat.lt_succ_self _⟩
  · intro p hp s hs q hq
    rw [hlength, Set.mem_Ico]
    rw [getElem?_push] at hs
    split at hs
    · obtain rfl := some_inj.1 hs
      rcases List.mem_pair.1 hq with rfl | rfl <;> omega
    · by_cases hside : p < states₁.length
      · rw [hr.before p hside] at hs
        have hedge := hl.closed p hp s hs q hq
        rw [Set.mem_Ico] at hedge
        omega
      · have hedge := hr.closed p (Nat.not_lt.1 hside) s hs q hq
        rw [Set.mem_Ico] at hedge
        omega
  · intro p
    rw [List.mem_append, hl.dangling p, hr.dangling p]
    constructor
    · rintro (⟨hp, s, hs, hzero⟩ | ⟨hp, s, hs, hzero⟩)
      · have hside : p < states₁.length := (List.getElem?_eq_some_iff.1 hs).1
        exact ⟨hp, s, by rw [hleft p hside]; exact hs, hzero⟩
      · have hside : p < states₂.length := (List.getElem?_eq_some_iff.1 hs).1
        exact ⟨hlt.le.trans hp, s, by rw [getElem?_push_of_lt hside]; exact hs, hzero⟩
    · rintro ⟨hp, s, hs, hzero⟩
      rw [getElem?_push] at hs
      split at hs
      · obtain rfl := some_inj.1 hs
        rcases List.mem_pair.1 hzero with hzero | hzero <;> omega
      · by_cases hside : p < states₁.length
        · rw [hr.before p hside] at hs
          exact .inl ⟨hp, s, hs, hzero⟩
        · exact .inr ⟨Nat.not_lt.1 hside, s, hs, hzero⟩
  · have hne : states₂.length ≠ 0 := Nat.ne_of_gt ((Nat.zero_le _).trans_lt hlt')
    rw [wordsTo_split hnew hne, hl.wordsTo_kept h0 hfinal0 fun p hp => hleft p hp.2,
      hr.wordsTo_kept h1 hfinal0 fun p hp => getElem?_push_of_lt hp.2]

/-- Option: a split state that may leave the fragment out. -/
theorem question (h : Compiled states states₁ frag L) :
    Compiled states (states₁ ++ [.split frag.start 0]) ⟨states₁.length, frag.dangling ++ [states₁.length]⟩ (L + 1) := by
  have hlt := h.length_lt
  have hlength : (states₁ ++ [NfaState.split frag.start 0]).length = states₁.length + 1 := List.length_append
  have hnew : (states₁ ++ [NfaState.split frag.start 0])[states₁.length]? = some (.split frag.start 0) :=
    List.getElem?_concat_length
  have hfinal0 : HasPlaceholder (states₁ ++ [NfaState.split frag.start 0]) :=
    (getElem?_push_of_lt (h.placeholder h0).length_pos).trans (h.placeholder h0)
  have hstart := h.start
  rw [Set.mem_Ico] at hstart
  refine ⟨?_, ?_, ?_, ?_, ?_⟩
  · intro p hp
    rw [getElem?_push_of_lt (hp.trans hlt), h.before p hp]
  · rw [hlength]
    exact ⟨hlt.le, Nat.lt_succ_self _⟩
  · intro p hp s hs q hq
    rw [hlength, Set.mem_Ico]
    rw [getElem?_push] at hs
    split at hs
    · obtain rfl := some_inj.1 hs
      rcases List.mem_pair.1 hq with rfl | rfl <;> omega
    · have hedge := h.closed p hp s hs q hq
      rw [Set.mem_Ico] at hedge
      omega
  · intro p
    rw [List.mem_append, h.dangling p, List.mem_singleton]
    constructor
    · rintro (⟨hp, s, hs, hzero⟩ | rfl)
      · have hside : p < states₁.length := (List.getElem?_eq_some_iff.1 hs).1
        exact ⟨hp, s, by rw [getElem?_push_of_lt hside]; exact hs, hzero⟩
      · exact ⟨hlt.le, _, hnew, List.mem_pair.2 (.inr rfl)⟩
    · rintro ⟨hp, s, hs, hzero⟩
      rw [getElem?_push] at hs
      split at hs
      · exact .inr ‹_›
      · exact .inl ⟨hp, s, hs, hzero⟩
  · have hne : states₁.length ≠ 0 := Nat.ne_of_gt ((Nat.zero_le _).trans_lt hlt)
    rw [wordsTo_split hnew hne, h.wordsTo_kept h0 hfinal0 fun p hp => getElem?_push_of_lt hp.2, hfinal0.wordsTo_zero]

end

/-- The array in which the open edges of a fragment lead to a new state that chooses between the fragment and
the exit. -/
abbrev looped (frag : Fragment) (states : List NfaState) : List NfaState :=
  patch frag.dangling states.length (states ++ [.split frag.start 0])

section

variable (h0 : HasPlaceholder states)
include h0

theorem looped_mem (h : Compiled states states₁ frag L) :
    ∀ p ∈ Set.Ico states.length states₁.length,
      (looped frag states₁)[p]? = (states₁[p]?).map (NfaState.fill states₁.length) :=
  fun _ hp => h.patch_mem (Nat.ne_of_gt (h.placeholder h0).length_pos)
    (fun _ hp' => getElem?_push_of_lt hp') hp

theorem looped_notMem (h : Compiled states states₁ frag L) {p : Nat}
    (hp : p ∉ Set.Ico states.length states₁.length) :
    (looped frag states₁)[p]? = (states₁ ++ [NfaState.split frag.start 0])[p]? :=
  h.patch_notMem (Nat.ne_of_gt (h.placeholder h0).length_pos) hp

theorem looped_new (h : Compiled states states₁ frag L) :
    (looped frag states₁)[states₁.length]? = some (.split frag.start 0) := by
  rw [looped_notMem h0 h fun hmem => Nat.lt_irrefl _ hmem.2, List.getElem?_concat_length]

theorem looped_before (h : Compiled states states₁ frag L) :
    ∀ p < states.length, (looped frag states₁)[p]? = states[p]? := by
  intro p hp
  rw [looped_notMem h0 h fun hmem => absurd hp (Nat.not_lt.2 hmem.1), getElem?_push_of_lt (hp.trans h.length_lt),
    h.before p hp]

/-- Repetition: from the new state any number of rounds lead to the exit. -/
theorem wordsTo_looped (h : Compiled states states₁ frag L) :
    wordsTo (looped frag states₁) states₁.length 0 = L∗ := by
  have hne : states₁.length ≠ 0 := Nat.ne_of_gt (h.placeholder h0).length_pos
  have hfinal0 : HasPlaceholder (looped frag states₁) := (looped_before h0 h 0 h0.length_pos).trans h0
  have hnew := looped_new h0 h
  rw [wordsTo, (h.spliced h0 (looped_mem h0 h)).pathLanguage_loop h.start hne (hfinal0.dead 0 0)]
  · exact congrArg (·∗) h.language
  · intro q
    constructor
    · rintro ⟨s, hs, hq⟩
      obtain rfl := some_inj.1 (hnew.symm.trans hs)
      exact List.mem_pair.1 hq
    · exact fun hq => ⟨_, hnew, List.mem_pair.2 hq⟩
  · intro a
    refine Set.eq_empty_of_forall_notMem ?_
    rintro q ⟨s, hs, hq⟩
    obtain rfl := some_inj.1 (hnew.symm.trans hs)
    cases hq

theorem loop (h : Compiled states states₁ frag L) {start : Nat}
    (hstart : start ∈ Set.Ico states.length (states₁.length + 1)) (hL : wordsTo (looped frag states₁) start 0 = L') :
    Compiled states (looped frag states₁) ⟨start, [states₁.length]⟩ L' := by
  have hlt := h.length_lt
  have hne : states₁.length ≠ 0 := Nat.ne_of_gt (h.placeholder h0).length_pos
  have hlength : (looped frag states₁).length = states₁.length + 1 := by
    rw [patch_length, List.length_append, List.length_singleton]
  have hnew := looped_new h0 h
  have hfrag := h.start
  rw [Set.mem_Ico] at hfrag
  -- a state beyond the fragment is the new one
  have hbeyond : ∀ p s, states₁.length ≤ p → (looped frag states₁)[p]? = some s →
      p = states₁.length ∧ s = .split frag.start 0 := by
    intro p s hp hs
    have hlast : p < states₁.length + 1 := hlength ▸ (List.getElem?_eq_some_iff.1 hs).1
    obtain rfl : p = states₁.length := Nat.le_antisymm (Nat.lt_succ_iff.1 hlast) hp
    exact ⟨rfl, (some_inj.1 (hnew.symm.trans hs)).symm⟩
  refine ⟨looped_before h0 h, by rw [hlength]; exact hstart, ?_, ?_, hL⟩
  · intro p hp s hs q hq
    rw [hlength, Set.mem_Ico]
    by_cases hside : p < states₁.length
    · rw [looped_mem h0 h p ⟨hp, hside⟩] at hs
      obtain ⟨s₀, hs₀, rfl⟩ := map_eq_some_iff.1 hs
      rcases NfaState.mem_edges_fill hq with rfl | ⟨hq0, hq⟩
      · omega
      · have hedge := h.closed p hp s₀ hs₀ q hq
        rw [Set.mem_Ico] at hedge
        omega
    · obtain ⟨-, rfl⟩ := hbeyond p s (Nat.not_lt.1 hside) hs
      rcases List.mem_pair.1 hq with rfl | rfl <;> omega
  · intro p
    rw [List.mem_singleton]
    constructor
    · rintro rfl
      exact ⟨hlt.le, _, hnew, List.mem_pair.2 (.inr rfl)⟩
    · rintro ⟨hp, s, hs, hzero⟩
      by_cases hside : p < states₁.length
      · rw [looped_mem h0 h p ⟨hp, hside⟩] at hs
        obtain ⟨s₀, -, rfl⟩ := map_eq_some_iff.1 hs
        exact absurd hzero (NfaState.zero_notMem_edges_fill hne)
      · exact (hbeyond p s (Nat.not_lt.1 hside) hs).1

end

end Compiled

theorem oneChar_cls (ranges : List (Char × Char)) (negated : Bool) :
    (oneChar fun c => (CharMatcher.cls ranges negated).matchesChar c = true) = (Ast.cls ranges negated).language := by
  have hin : ∀ c, (ranges.any fun r => decide (r.1 ≤ c) && decide (c ≤ r.2)) = true ↔ InRanges ranges c := by
    intro c
    simp [InRanges]
  cases negated with
  | false =>
    refine congrArg oneChar (funext fun c => propext ?_)
    exact hin c
  | true =>
    refine congrArg oneChar (funext fun c => propext ?_)
    rw [CharMatcher.matchesChar, if_pos rfl, Bool.not_eq_true', ← Bool.not_eq_true, hin]

theorem Compiled.literal (h0 : HasPlaceholder states) (matcher : CharMatcher) :
    Compiled states (states ++ [.literal matcher 0]) ⟨states.length, [states.length]⟩
      (oneChar fun c => matcher.matchesChar c = true) := by
  have h1 : HasPlaceholder (states ++ [.literal matcher 0]) := (getElem?_push_of_lt h0.length_pos).trans h0
  exact .single (fun q => List.mem_singleton) (wordsTo_literal h1 List.getElem?_concat_length)

theorem Compiled.anchor (h0 : HasPlaceholder states) :
    Compiled states (states ++ [.split 0 0]) ⟨states.length, [states.length]⟩ 1 := by
  have h1 : HasPlaceholder (states ++ [.split 0 0]) := (getElem?_push_of_lt h0.length_pos).trans h0
  refine .single (fun q => List.mem_pair.trans or_self_iff) ?_
  rw [wordsTo_split List.getElem?_concat_length (Nat.ne_of_gt h0.length_pos), h1.wordsTo_zero]
  exact add_idem 1

/-- Every expression compiles to a fragment with its language. -/
theorem compileAst_compiled (ast : Ast) (h0 : HasPlaceholder states) :
    Compiled states (compileAst ast states).2 (compileAst ast states).1 ast.language := by
  induction ast generalizing states with
  | literal c =>
    have hchar : (oneChar fun d => (CharMatcher.exact c).matchesChar d = true) = oneChar (· = c) :=
      congrArg oneChar (funext fun d => propext beq_iff_eq)
    have hfrag := Compiled.literal h0 (.exact c)
    rw [hchar] at hfrag
    exact hfrag
  | anyChar =>
    have hchar : (oneChar fun d => CharMatcher.anyExceptNewline.matchesChar d = true)
        = oneChar (· ≠ '\n') := congrArg oneChar (funext fun d => propext bne_iff_ne)
    have hfrag := Compiled.literal h0 .anyExceptNewline
    rw [hchar] at hfrag
    exact hfrag
  | cls ranges negated => exact oneChar_cls ranges negated ▸ Compiled.literal h0 (.cls ranges negated)
  | startAnchor => exact .anchor h0
  | endAnchor => exact .anchor h0
  | star inner ih =>
    have hinner := ih h0
    exact hinner.loop h0 ⟨hinner.length_lt.le, Nat.lt_succ_self _⟩ (Compiled.wordsTo_looped h0 hinner)
  | plus inner ih =>
    have hinner := ih h0
    have hzero : 0 ∉ Set.Ico states.length (compileAst inner states).2.length :=
      fun hmem => absurd h0.length_pos (Nat.not_lt.2 hmem.1)
    refine hinner.loop h0 ⟨hinner.start.1, Nat.lt_succ_of_lt hinner.start.2⟩ ?_
    rw [hinner.wordsTo_filled h0 hzero (Compiled.looped_mem h0 hinner), Compiled.wordsTo_looped h0 hinner]
    rfl
  | question inner ih => exact (ih h0).question h0
  | concat left right ihl ihr => exact .concat h0 (ihl h0) (ihr ((ihl h0).placeholder h0))
  | alternation left right ihl ihr => exact .alternation h0 (ihl h0) (ihr ((ihl h0).placeholder h0))

/-- The automaton of an expression: the words from its start to the match state are those of the
expression. -/
theorem wordsTo_compile (ast : Ast) :
    wordsTo (compile ast).states (compile ast).start (compile ast).accept = ast.language := by
  have h0 : HasPlaceholder Nfa.new.states := rfl
  have h := compileAst_compiled ast h0
  have hregion : 1 ∉ Set.Ico Nfa.new.states.length (compileAst ast Nfa.new.states).2.length :=
    fun hmem => absurd hmem.1 (by decide)
  have hfinal := fun p hp => @Compiled.patch_mem _ _ _ _ 1 p h Nat.one_ne_zero _ (fun _ _ => rfl) hp
  have haccept : (compile ast).states[1]? = some .accepting := by
    refine (h.patch_notMem Nat.one_ne_zero hregion).trans ?_
    exact h.before 1 (by decide)
  have hdead : ∀ a, (automaton (compile ast).states 0 0).step 1 a = ∅ := by
    intro a
    refine Set.eq_empty_of_forall_notMem ?_
    rintro q ⟨s, hs, hq⟩
    obtain rfl := some_inj.1 (haccept.symm.trans hs)
    cases hq
  calc wordsTo (compile ast).states (compile ast).start (compile ast).accept
      = ast.language * wordsTo (compile ast).states 1 1 := h.wordsTo_filled h0 hregion hfinal
    _ = ast.language := by rw [wordsTo, pathLanguage_dead hdead, mul_one]

end SystemDesignLabs.RegexEngine

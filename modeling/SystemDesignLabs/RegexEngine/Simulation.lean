import SystemDesignLabs.Core.GraphSearch
import SystemDesignLabs.RegexEngine.Thompson

/-!
# Running the automaton

`epsilon_closure`, `simulate_from` and `simulate` of `v1.rs`. A set of active states is a list, in one of the
orders that the hash sets of the source may have. The active states after some text are those of the
automaton (`mem_activeAfter`), so the simulation of a compiled expression decides its language
(`thompson_construction_correct`).
-/

namespace SystemDesignLabs.RegexEngine

open List Computability Core Nfa

/-! ### The simulation -/

/-- The edges without a character, the one that is popped first in front. -/
def NfaState.epsilonEdges : NfaState → List Nat
  | .split next1 next2 => [next2, next1]
  | _ => []

def Nfa.epsilonEdges (nfa : Nfa) (sid : Nat) : List Nat :=
  (nfa.state sid).epsilonEdges

/-- `epsilon_closure`. The fuel is enough (`epsilonClosure_graphSearch`). -/
def epsilonClosure (nfa : Nfa) (starts : List Nat) : List Nat :=
  (graphSearch nfa.epsilonEdges (starts.length + 2 * nfa.states.length) starts.reverse []).getD []

/-- The state that a state leads to on a character. -/
def NfaState.nextOn (c : Char) : NfaState → Option Nat
  | .literal matcher next => if matcher.matchesChar c then some next else none
  | _ => none

/-- `next_active`: the states that the active states lead to on a character. -/
def nextActive (nfa : Nfa) (active : List Nat) (c : Char) : List Nat :=
  active.filterMap fun sid => (nfa.state sid).nextOn c

/-- The loop of `simulate_from` over the rest of the text. -/
def simulateFromLoop (nfa : Nfa) (mustReachEnd : Bool) : List Char → List Nat → Bool
  | [], active => if mustReachEnd then active.contains nfa.accept else true
  | c :: chars, active =>
    if active.isEmpty then false
    else simulateFromLoop nfa mustReachEnd chars (epsilonClosure nfa (nextActive nfa active c))

def simulateFrom (nfa : Nfa) (chars : List Char) (start : Nat) (mustReachEnd : Bool) : Bool :=
  simulateFromLoop nfa mustReachEnd (chars.drop start) (epsilonClosure nfa [nfa.start])

/-- The inner loop of `simulate`: the active states at its end, and whether one of them was the match state
after some character. -/
def simulateLoop (nfa : Nfa) : List Char → List Nat → Bool → List Nat × Bool
  | [], active, matched => (active, matched)
  | c :: chars, active, matched =>
    if active.isEmpty then (active, matched)
    else
      let active := epsilonClosure nfa (nextActive nfa active c)
      simulateLoop nfa chars active (matched || active.contains nfa.accept)

/-- `reached_accept` of `simulate` for one start position. -/
def reachedAccept (nfa : Nfa) (chars : List Char) (startPos : Nat) : Bool :=
  let (active, matched) := simulateLoop nfa (chars.drop startPos) (epsilonClosure nfa [nfa.start]) false
  let matched := if active.contains nfa.accept then true else matched
  active.contains nfa.accept || matched

def simulate (nfa : Nfa) (chars : List Char) (anchoredStart anchoredEnd : Bool) : Bool :=
  let startPositions := if anchoredStart then [0] else List.range (chars.length + 1)
  startPositions.any fun startPos =>
    reachedAccept nfa chars startPos && (if anchoredEnd then simulateFrom nfa chars startPos true else true)

/-! ### Well-formed automata -/

/-- The automaton that an NFA describes. -/
abbrev Nfa.automaton (nfa : Nfa) : εNFA Char Nat :=
  RegexEngine.automaton nfa.states nfa.start nfa.accept

/-- All states that an NFA names are there. -/
structure Nfa.WellFormed (nfa : Nfa) : Prop where
  start_lt : nfa.start < nfa.states.length
  edges_lt : ∀ p : Nat, ∀ s, nfa.states[p]? = some s → ∀ q ∈ s.edges, q < nfa.states.length

/-- A compiled expression is well formed, so that no index is out of range. -/
theorem compile_wellFormed (ast : Ast) : (compile ast).WellFormed := by
  have h0 : HasPlaceholder new.states := rfl
  have h := compileAst_compiled ast h0
  have hlength : (compile ast).states.length = (compileAst ast new.states).2.length := patch_length _ _ _
  have hlt := h.length_lt
  refine ⟨hlength ▸ h.start.2, ?_⟩
  intro p s hs q hq
  rw [hlength]
  by_cases hp : p < new.states.length
  · -- the first two states have no edges
    have hold : new.states[p]? = some s := by
      rw [← h.before p hp, ← hs]
      exact (h.patch_notMem Nat.one_ne_zero fun hmem => absurd hp (Nat.not_lt.2 hmem.1)).symm
    have hcases : s = .dead ∨ s = .accepting := by
      match p, hp with
      | 0, _ => exact .inl (Option.some_inj.1 hold).symm
      | 1, _ => exact .inr (Option.some_inj.1 hold).symm
    rcases hcases with rfl | rfl <;> cases hq
  · have hregion : p ∈ Set.Ico new.states.length (compileAst ast new.states).2.length :=
      ⟨Nat.not_lt.1 hp, hlength ▸ (List.getElem?_eq_some_iff.1 hs).1⟩
    have hfilled := h.patch_mem Nat.one_ne_zero (fun _ _ => rfl) hregion
    obtain ⟨s₀, hs₀, rfl⟩ := Option.map_eq_some_iff.1 (hfilled.symm.trans hs)
    rcases NfaState.mem_edges_fill hq with rfl | ⟨hq0, hq⟩
    · exact Nat.lt_of_lt_of_le (by decide : 1 < 2) hlt.le
    · exact ((h.closed p hregion.1 s₀ hs₀ q hq).resolve_left hq0).2

/-! ### Closures -/

namespace Nfa

variable {nfa : Nfa} {p q : Nat} {starts : List Nat}

theorem state_eq_of_getElem? {s : NfaState} (h : nfa.states[p]? = some s) : nfa.state p = s := by
  rw [state, getD_eq_getElem?_getD, h]
  rfl

theorem state_eq_dead (h : nfa.states.length ≤ p) : nfa.state p = .dead := by
  rw [state, getD_eq_getElem?_getD, getElem?_eq_none h]
  rfl

theorem mem_step {a : Option Char} : q ∈ nfa.automaton.step p a ↔ q ∈ (nfa.state p).targets a := by
  constructor
  · rintro ⟨s, hs, hq⟩
    rw [state_eq_of_getElem? hs]
    exact hq
  · intro hq
    rcases Nat.lt_or_ge p nfa.states.length with hp | hp
    · have hs := getElem?_eq_getElem hp
      exact ⟨_, hs, by rw [state_eq_of_getElem? hs] at hq; exact hq⟩
    · rw [state_eq_dead hp] at hq
      cases hq

theorem succ_epsilonEdges : Succ nfa.epsilonEdges p q ↔ q ∈ nfa.automaton.step p none := by
  rw [mem_step, Succ, epsilonEdges]
  cases nfa.state p with
  | literal matcher next => rfl
  | split next1 next2 =>
    rw [NfaState.epsilonEdges, NfaState.targets, mem_pair, mem_pair]
    exact or_comm
  | accepting => rfl
  | dead => rfl

theorem epsilonEdges_length_le (nfa : Nfa) (p : Nat) : (nfa.epsilonEdges p).length ≤ 2 := by
  rw [epsilonEdges]
  cases nfa.state p with
  | literal matcher next => exact Nat.zero_le 2
  | split next1 next2 => exact le_refl 2
  | accepting => exact Nat.zero_le 2
  | dead => exact Nat.zero_le 2

end Nfa

theorem NfaState.nextOn_eq_some {s : NfaState} {c : Char} {q : Nat} : s.nextOn c = some q ↔ q ∈ s.targets (some c) := by
  cases s with
  | literal matcher next =>
    rw [nextOn, targets]
    split
    · rw [mem_singleton, Option.some_inj]
      exact eq_comm
    · exact iff_of_false (by rintro ⟨⟩) not_mem_nil
  | split next1 next2 => exact iff_of_false (by rintro ⟨⟩) not_mem_nil
  | accepting => exact iff_of_false (by rintro ⟨⟩) not_mem_nil
  | dead => exact iff_of_false (by rintro ⟨⟩) not_mem_nil

section Closure

variable {nfa : Nfa}

/-- `epsilon_closure` ends: every state pushes its edges once. -/
theorem epsilonClosure_graphSearch (nfa : Nfa) (starts : List Nat) :
    graphSearch nfa.epsilonEdges (starts.length + 2 * nfa.states.length) starts.reverse []
      = some (epsilonClosure nfa starts) := by
  have hnodes : ∀ p ∉ Finset.range nfa.states.length, nfa.epsilonEdges p = [] := by
    intro p hp
    rw [Finset.mem_range, Nat.not_lt] at hp
    rw [epsilonEdges, state_eq_dead hp]
    rfl
  have hpushes : pushes nfa.epsilonEdges (Finset.range nfa.states.length) [] ≤ 2 * nfa.states.length := by
    have hsum := Finset.sum_le_card_nsmul ((Finset.range nfa.states.length).filter (· ∉ ([] : List Nat)))
      (fun p => (nfa.epsilonEdges p).length) 2 fun p _ => nfa.epsilonEdges_length_le p
    have hcard := Finset.card_filter_le (Finset.range nfa.states.length) (· ∉ ([] : List Nat))
    rw [Finset.card_range] at hcard
    rw [smul_eq_mul] at hsum
    rw [pushes]
    omega
  have hsome := @graphSearch_isSome Nat _ nfa.epsilonEdges (starts.length + 2 * nfa.states.length) starts.reverse
    [] (Finset.range nfa.states.length) hnodes (by rw [length_reverse]; omega)
  obtain ⟨result, hresult⟩ := Option.isSome_iff_exists.1 hsome
  rw [epsilonClosure, hresult]
  rfl

/-- The closure of the source is the closure of the automaton. -/
theorem mem_epsilonClosure {starts : List Nat} {q : Nat} :
    q ∈ epsilonClosure nfa starts ↔ q ∈ nfa.automaton.εClosure {p | p ∈ starts} := by
  rw [mem_graphSearch (epsilonClosure_graphSearch nfa starts)]
  constructor
  · rintro ⟨p, hp, hpath⟩
    induction hpath with
    | refl => exact εNFA.εClosure.base p (mem_reverse.1 hp)
    | tail _ hstep ih => exact εNFA.εClosure.step _ _ (succ_epsilonEdges.1 hstep) ih
  · intro h
    induction h with
    | base p hp => exact ⟨p, mem_reverse.2 hp, .refl⟩
    | step _ _ hstep _ ih =>
      obtain ⟨start, hstart, hpath⟩ := ih
      exact ⟨start, hstart, hpath.tail (succ_epsilonEdges.2 hstep)⟩

theorem epsilonClosure_nodup (nfa : Nfa) (starts : List Nat) : (epsilonClosure nfa starts).Nodup :=
  graphSearch_nodup (epsilonClosure_graphSearch nfa starts) nodup_nil

theorem mem_nextActive {active : List Nat} {c : Char} {q : Nat} :
    q ∈ nextActive nfa active c ↔ ∃ p ∈ active, q ∈ nfa.automaton.step p (some c) := by
  rw [nextActive, mem_filterMap]
  refine exists_congr fun p => and_congr_right fun _ => ?_
  rw [mem_step]
  exact NfaState.nextOn_eq_some

/-- One step: the active states after a character are those of the automaton. -/
theorem mem_closure_nextActive {active : List Nat} {A : Set Nat} (hA : ∀ q, q ∈ active ↔ q ∈ A) (c : Char)
    (q : Nat) : q ∈ epsilonClosure nfa (nextActive nfa active c) ↔ q ∈ nfa.automaton.stepSet A c := by
  rw [mem_epsilonClosure, εNFA.mem_stepSet_iff, εNFA.mem_εClosure_iff_exists]
  constructor
  · rintro ⟨t, ht, hq⟩
    obtain ⟨p, hp, hstep⟩ := mem_nextActive.1 ht
    exact ⟨p, (hA p).1 hp, (nfa.automaton.mem_εClosure_iff_exists).2 ⟨t, hstep, hq⟩⟩
  · rintro ⟨p, hp, hq⟩
    obtain ⟨t, hstep, hq⟩ := (nfa.automaton.mem_εClosure_iff_exists).1 hq
    exact ⟨t, mem_nextActive.2 ⟨p, (hA p).2 hp, hstep⟩, hq⟩

theorem mem_closure_start (q : Nat) : q ∈ epsilonClosure nfa [nfa.start] ↔ q ∈ nfa.automaton.eval [] := by
  rw [mem_epsilonClosure]
  have hstart : {p | p ∈ [nfa.start]} = nfa.automaton.start := by
    ext p
    exact mem_singleton
  rw [hstart]
  rfl

end Closure

/-! ### Runs -/

section Runs

variable {nfa : Nfa}

/-- The states that are active after some text. -/
def activeAfter (nfa : Nfa) (active : List Nat) (text : List Char) : List Nat :=
  text.foldl (fun active c => epsilonClosure nfa (nextActive nfa active c)) active

theorem activeAfter_nil (nfa : Nfa) (text : List Char) : activeAfter nfa [] text = [] := by
  have hstep : ∀ c, epsilonClosure nfa (nextActive nfa [] c) = [] := by
    intro c
    refine eq_nil_iff_forall_not_mem.2 fun q hq => ?_
    rw [mem_closure_nextActive (A := ∅) (fun p => iff_of_false not_mem_nil (Set.notMem_empty p)),
      εNFA.stepSet_empty] at hq
    exact Set.notMem_empty q hq
  induction text with
  | nil => rfl
  | cons c text ih =>
    rw [activeAfter, foldl_cons, hstep]
    exact ih

/-- The active states after some text are those of the automaton. -/
theorem mem_activeAfter {active : List Nat} {A : Set Nat} (hA : ∀ q, q ∈ active ↔ q ∈ A) (text : List Char)
    (q : Nat) : q ∈ activeAfter nfa active text ↔ q ∈ text.foldl nfa.automaton.stepSet A := by
  induction text generalizing active A with
  | nil => exact hA q
  | cons c text ih => exact ih (mem_closure_nextActive hA c)

theorem accept_mem_activeAfter (nfa : Nfa) (text : List Char) :
    nfa.accept ∈ activeAfter nfa (epsilonClosure nfa [nfa.start]) text
      ↔ text ∈ wordsTo nfa.states nfa.start nfa.accept := by
  have hstep : nfa.automaton.step = (automaton nfa.states 0 0).step := rfl
  have hcongr : pathLanguage nfa.automaton nfa.start nfa.accept
      = wordsTo nfa.states nfa.start nfa.accept := pathLanguage_congr hstep _ _
  rw [mem_activeAfter mem_closure_start, ← hcongr]
  show nfa.accept ∈ nfa.automaton.evalFrom {nfa.start} text ↔ _
  exact nfa.automaton.mem_evalFrom_iff_exists_path

theorem simulateFromLoop_eq (nfa : Nfa) (text : List Char) (active : List Nat) :
    simulateFromLoop nfa true text active = (activeAfter nfa active text).contains nfa.accept := by
  induction text generalizing active with
  | nil => rfl
  | cons c text ih =>
    rw [simulateFromLoop]
    split
    · next hempty =>
      rw [isEmpty_iff.1 hempty, activeAfter_nil]
      rfl
    · exact ih _

/-- `simulate_from` with `must_reach_end` decides whether the rest of the text is read. -/
theorem simulateFrom_eq_true (nfa : Nfa) (text : List Char) (start : Nat) : simulateFrom nfa text start true = true
      ↔ text.drop start ∈ wordsTo nfa.states nfa.start nfa.accept := by
  rw [simulateFrom, simulateFromLoop_eq, contains_iff_mem, accept_mem_activeAfter]

/-- **Thompson's construction is correct**: the run of the compiled expression over the whole text accepts
exactly the texts of the expression's language. -/
theorem thompson_construction_correct (ast : Ast) (text : List Char) :
    simulateFrom (compile ast) text 0 true = true ↔ text ∈ ast.language := by
  rw [simulateFrom_eq_true, wordsTo_compile, drop_zero]

end Runs

end SystemDesignLabs.RegexEngine

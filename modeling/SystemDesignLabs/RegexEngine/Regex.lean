import SystemDesignLabs.RegexEngine.Dfa

/-!
# Searching for a match

What `simulate` of `v1.rs` answers in its four modes. The loop looks for the match state after each character
and once at its end, so it misses the empty match at a start position with text behind it. With an open start
another position makes up for that, and with an anchored end the whole rest of the text is simulated again;
with an anchored start and an open end the empty prefix is missed (`simulate_searches_iff`).
-/

namespace SystemDesignLabs.RegexEngine

open List Computability Core

variable {nfa : Nfa} {ast : Ast} {text : List Char}

theorem simulateLoop_active (nfa : Nfa) (text : List Char) (active : List Nat) (matched : Bool) :
    (simulateLoop nfa text active matched).1 = activeAfter nfa active text := by
  induction text generalizing active matched with
  | nil => rfl
  | cons c text ih =>
    rw [simulateLoop]
    split
    · next hempty =>
      rw [isEmpty_iff.1 hempty, activeAfter_nil]
    · exact ih _ _

/-- The flag of the loop is set when the match state was active after some character. -/
theorem simulateLoop_matched (text : List Char) (active : List Nat) (matched : Bool) :
    (simulateLoop nfa text active matched).2 = true
      ↔ matched = true ∨ ∃ w, w <+: text ∧ w ≠ [] ∧ nfa.accept ∈ activeAfter nfa active w := by
  induction text generalizing active matched with
  | nil =>
    refine (or_iff_left ?_).symm
    rintro ⟨w, hw, hne, -⟩
    exact hne (prefix_nil.1 hw)
  | cons c text ih =>
    rw [simulateLoop]
    split
    · next hempty =>
      refine (or_iff_left ?_).symm
      rintro ⟨w, -, -, hw⟩
      rw [isEmpty_iff.1 hempty, activeAfter_nil] at hw
      exact not_mem_nil hw
    · rw [ih, Bool.or_eq_true, contains_iff_mem, or_assoc]
      refine or_congr_right ?_
      constructor
      · rintro (hw | ⟨w, hw, -, hmem⟩)
        · exact ⟨[c], cons_prefix_cons.2 ⟨rfl, nil_prefix⟩, cons_ne_nil c [], hw⟩
        · exact ⟨c :: w, cons_prefix_cons.2 ⟨rfl, hw⟩, cons_ne_nil c w, hmem⟩
      · rintro ⟨w, hw, hne, hmem⟩
        cases w with
        | nil => exact absurd rfl hne
        | cons d w =>
          obtain ⟨rfl, htail⟩ := cons_prefix_cons.1 hw
          by_cases hnil : w = []
          · subst hnil
            exact .inl hmem
          · exact .inr ⟨w, htail, hnil, hmem⟩

/-- One start position: the rest of the text has a prefix in the language, which is empty only where no
text is left. -/
theorem reachedAccept_compile (ast : Ast) (text : List Char) (startPos : Nat) :
    reachedAccept (compile ast) text startPos = true
      ↔ ∃ w, w <+: text.drop startPos ∧ (w ≠ [] ∨ text.drop startPos = []) ∧ w ∈ ast.language := by
  have hlanguage : ∀ w, (compile ast).accept
      ∈ activeAfter (compile ast) (epsilonClosure (compile ast) [(compile ast).start]) w ↔ w ∈ ast.language :=
    fun w => by rw [accept_mem_activeAfter, wordsTo_compile]
  have hreached : ∀ (active : List Nat) (matched : Bool), (active.contains (compile ast).accept
      || (if active.contains (compile ast).accept then true else matched)) = true
        ↔ (compile ast).accept ∈ active ∨ matched = true := by
    intro active matched
    rw [← contains_iff_mem]
    cases active.contains (compile ast).accept <;> simp
  rw [reachedAccept]
  dsimp only
  rw [hreached, simulateLoop_active, simulateLoop_matched, hlanguage]
  constructor
  · rintro (hall | hfalse | ⟨w, hw, hne, hmem⟩)
    · exact ⟨_, prefix_refl _, (eq_or_ne _ []).symm, hall⟩
    · exact absurd hfalse Bool.false_ne_true
    · exact ⟨w, hw, .inl hne, (hlanguage w).1 hmem⟩
  · rintro ⟨w, hw, hne | hnil, hmem⟩
    · exact .inr (.inr ⟨w, hw, hne, (hlanguage w).2 hmem⟩)
    · rw [hnil] at hw ⊢
      exact .inl (prefix_nil.1 hw ▸ hmem)

theorem reachedAccept_and_simulateFrom (ast : Ast) (text : List Char) (startPos : Nat) :
    (reachedAccept (compile ast) text startPos && simulateFrom (compile ast) text startPos true) = true
      ↔ text.drop startPos ∈ ast.language := by
  rw [Bool.and_eq_true, reachedAccept_compile, simulateFrom_eq_true, wordsTo_compile, and_iff_right_iff_imp]
  exact fun h => ⟨_, prefix_refl _, (eq_or_ne _ []).symm, h⟩

theorem simulate_open_open (ast : Ast) (text : List Char) :
    simulate (compile ast) text false false = true ↔ ∃ w, w <:+: text ∧ w ∈ ast.language := by
  rw [simulate, any_eq_true]
  simp only [Bool.false_eq_true, if_false, Bool.and_true, mem_range, reachedAccept_compile]
  constructor
  · rintro ⟨startPos, -, w, hw, -, hmem⟩
    exact ⟨w, hw.isInfix.trans (drop_suffix startPos text).isInfix, hmem⟩
  · rintro ⟨w, ⟨before, after, rfl⟩, hmem⟩
    by_cases hnil : w = []
    · -- the empty match is seen at the end of the text
      refine ⟨_, Nat.lt_succ_self _, w, hnil ▸ nil_prefix, .inr ?_, hmem⟩
      exact drop_length
    · refine ⟨before.length, ?_, w, ?_, .inl hnil, hmem⟩
      · rw [length_append, length_append]
        omega
      · rw [append_assoc, drop_left]
        exact prefix_append w after

theorem simulate_anchored_open (ast : Ast) (text : List Char) : simulate (compile ast) text true false = true
      ↔ ∃ w, w <+: text ∧ (w ≠ [] ∨ text = []) ∧ w ∈ ast.language := by
  rw [simulate, any_eq_true]
  simp only [Bool.false_eq_true, if_false, if_true, Bool.and_true, mem_singleton, exists_eq_left,
    reachedAccept_compile, drop_zero]

theorem simulate_open_anchored (ast : Ast) (text : List Char) :
    simulate (compile ast) text false true = true ↔ ∃ w, w <:+ text ∧ w ∈ ast.language := by
  rw [simulate, any_eq_true]
  simp only [Bool.false_eq_true, if_false, if_true, mem_range, reachedAccept_and_simulateFrom]
  constructor
  · rintro ⟨startPos, -, hmem⟩
    exact ⟨_, drop_suffix startPos text, hmem⟩
  · rintro ⟨w, ⟨before, rfl⟩, hmem⟩
    refine ⟨before.length, ?_, ?_⟩
    · rw [length_append]
      omega
    · rw [drop_left]
      exact hmem

theorem simulate_anchored_anchored (ast : Ast) (text : List Char) :
    simulate (compile ast) text true true = true ↔ text ∈ ast.language := by
  rw [simulate, any_eq_true]
  simp only [if_true, mem_singleton, exists_eq_left, reachedAccept_and_simulateFrom, drop_zero]

/-- `simulate` answers what its modes say. -/
structure Searches (ast : Ast) (text : List Char) : Prop where
  substring : simulate (compile ast) text false false = true ↔ ∃ w, w <:+: text ∧ w ∈ ast.language
  leading : simulate (compile ast) text true false = true ↔ ∃ w, w <+: text ∧ w ∈ ast.language
  trailing : simulate (compile ast) text false true = true ↔ ∃ w, w <:+ text ∧ w ∈ ast.language
  whole : simulate (compile ast) text true true = true ↔ text ∈ ast.language

/-- An empty match at the start of a text is not all there is. -/
def NoLoneEmptyMatch (ast : Ast) (text : List Char) : Prop :=
  text = [] ∨ [] ∉ ast.language ∨ ∃ w, w <+: text ∧ w ≠ [] ∧ w ∈ ast.language

/-- **The four modes** answer what they say, unless all that matches at the start of a text is empty. -/
theorem simulate_searches_iff (ast : Ast) (text : List Char) :
    Searches ast text ↔ NoLoneEmptyMatch ast text := by
  constructor
  · intro h
    by_contra hlone
    rw [NoLoneEmptyMatch, not_or, not_or, not_not] at hlone
    obtain ⟨htext, hempty, hnone⟩ := hlone
    obtain ⟨w, hw, hne | hnil, hmem⟩ :=
      (simulate_anchored_open ast text).1 (h.leading.2 ⟨[], nil_prefix, hempty⟩)
    · exact hnone ⟨w, hw, hne, hmem⟩
    · exact htext hnil
  · intro h
    refine ⟨simulate_open_open ast text, ?_, simulate_open_anchored ast text, simulate_anchored_anchored ast text⟩
    rw [simulate_anchored_open]
    constructor
    · rintro ⟨w, hw, -, hmem⟩
      exact ⟨w, hw, hmem⟩
    · rintro ⟨w, hw, hmem⟩
      by_cases hnil : w = []
      · subst hnil
        rcases h with htext | hempty | ⟨w, hw, hne, hmem'⟩
        · exact ⟨[], hw, .inr htext, hmem⟩
        · exact absurd hmem hempty
        · exact ⟨w, hw, .inl hne, hmem'⟩
      · exact ⟨w, hw, .inl hnil, hmem⟩

/-- `a*` matches the empty prefix of `b`, and `simulate` with an anchored start does not find it. -/
theorem empty_prefix_missed :
    simulate (compile (.star (.literal 'a'))) ['b'] true false = false
      ∧ [] <+: ['b'] ∧ [] ∈ (Ast.star (.literal 'a')).language
      ∧ ¬ Searches (.star (.literal 'a')) ['b'] := by
  have hfalse : simulate (compile (.star (.literal 'a'))) ['b'] true false = false := by rfl
  have hempty : [] ∈ (Ast.star (.literal 'a')).language := Language.nil_mem_kstar _
  refine ⟨hfalse, nil_prefix, hempty, fun h => ?_⟩
  have htrue := h.leading.2 ⟨[], nil_prefix, hempty⟩
  rw [hfalse] at htrue
  exact absurd htrue Bool.false_ne_true

/-!
## Compiled patterns

`Regex` of `v2.rs`: a pattern, its automaton and, once `build_dfa` was called, its table. The table answers
whether a text as a whole is read, the simulation searches as the anchors of the pattern allow. Whatever the
table accepts, the simulation finds (`Regex.isMatchNfa_of_full`), so the two answers differ where something
is found in a text that is not accepted as a whole (`Regex.build_dfa_pure_iff`).
-/

open Option

def hasAnchor (startAnchor : Bool) : Ast → Bool
  | .startAnchor => startAnchor
  | .endAnchor => !startAnchor
  | .concat left right => hasAnchor startAnchor left || hasAnchor startAnchor right
  | .alternation left right => hasAnchor startAnchor left && hasAnchor startAnchor right
  | .star inner => hasAnchor startAnchor inner
  | .plus inner => hasAnchor startAnchor inner
  | .question inner => hasAnchor startAnchor inner
  | _ => false

/-- A compiled pattern. -/
structure Regex where
  nfa : Nfa
  dfa : Option Dfa
  hasStartAnchor : Bool
  hasEndAnchor : Bool
  deriving DecidableEq, Repr

namespace Regex

def new (pattern : List Char) : Except String Regex := do
  let ast ← parse pattern
  .ok ⟨compile ast, none, hasAnchor true ast, hasAnchor false ast⟩

/-- `Regex::build_dfa`. It has a result for every compiled pattern (`buildDfa_eq`). -/
def buildDfa (re : Regex) : Option Regex :=
  (Dfa.fromNfa re.nfa).map fun dfa => { re with dfa := some dfa }

def isMatchNfa (re : Regex) (text : List Char) : Bool :=
  simulate re.nfa text re.hasStartAnchor re.hasEndAnchor

def isMatchDfa (re : Regex) (text : List Char) : Bool :=
  match re.dfa with
  | some dfa => dfa.isMatchFull text
  | none => simulate re.nfa text re.hasStartAnchor re.hasEndAnchor

end Regex

/-! #### The two answers -/

/-- What the simulation looks for: a part of the text that is in the language, at the ends where the pattern
has anchors, and not the empty start of a text. -/
def Occurs (ast : Ast) (text : List Char) : Prop :=
  match hasAnchor true ast, hasAnchor false ast with
  | false, false => ∃ w, w <:+: text ∧ w ∈ ast.language
  | true, false => ∃ w, w <+: text ∧ (w ≠ [] ∨ text = []) ∧ w ∈ ast.language
  | false, true => ∃ w, w <:+ text ∧ w ∈ ast.language
  | true, true => text ∈ ast.language

/-- What the table accepts: an ASCII text that is in the language as a whole. -/
def AcceptedWhole (ast : Ast) (text : List Char) : Prop :=
  (∀ c ∈ text, c.toNat < asciiCount) ∧ text ∈ ast.language

theorem AcceptedWhole.occurs {ast : Ast} {text : List Char} (h : AcceptedWhole ast text) : Occurs ast text := by
  rw [Occurs]
  split
  · exact ⟨text, infix_refl text, h.2⟩
  · exact ⟨text, prefix_refl text, (eq_or_ne text []).symm, h.2⟩
  · exact ⟨text, suffix_refl text, h.2⟩
  · exact h.2

theorem simulate_eq_true (ast : Ast) (text : List Char) :
    simulate (compile ast) text (hasAnchor true ast) (hasAnchor false ast) = true ↔ Occurs ast text := by
  rw [Occurs]
  cases hasAnchor true ast with
  | false =>
    cases hasAnchor false ast with
    | false => exact simulate_open_open ast text
    | true => exact simulate_open_anchored ast text
  | true =>
    cases hasAnchor false ast with
    | false => exact simulate_anchored_open ast text
    | true => exact simulate_anchored_anchored ast text

theorem fromNfa_compile (ast : Ast) : ∃ dfa, Dfa.fromNfa (compile ast) = some dfa
    ∧ ∀ text, dfa.isMatchFull text = true ↔ AcceptedWhole ast text := by
  obtain ⟨b, sets, hdfa, hbuilt, hstart⟩ := Dfa.fromNfa_built (compile_wellFormed ast)
  refine ⟨_, hdfa, fun text => ?_⟩
  by_cases hascii : ∀ c ∈ text, c.toNat < asciiCount
  · rw [hbuilt.isMatchFull hstart hascii, simulateFrom_eq_true, wordsTo_compile, drop_zero]
    exact (and_iff_right hascii).symm
  · have hbeyond : ∃ c ∈ text, asciiCount ≤ c.toNat := by
      by_contra hnone
      exact hascii fun c hc => Nat.not_le.1 fun hle => hnone ⟨c, hc, hle⟩
    rw [Dfa.isMatchFull, Dfa.isMatchFrom_of_not_ascii _ _ hbeyond]
    exact iff_of_false Bool.false_ne_true fun h => hascii h.1

namespace Regex

variable {pattern : List Char} {ast : Ast} {re : Regex}

theorem new_eq_ok (hast : parse pattern = .ok ast) (hre : new pattern = .ok re) :
    re = ⟨compile ast, none, hasAnchor true ast, hasAnchor false ast⟩ := by
  rw [new, hast] at hre
  exact (Except.ok.inj hre).symm

/-- Building the table changes no answer: neither that of `is_match_dfa`, nor the one it shares with
`is_match_nfa`. -/
def PureOptimisation (re : Regex) (text : List Char) : Prop :=
  ∃ built, re.buildDfa = some built ∧ built.isMatchDfa text = re.isMatchDfa text
    ∧ built.isMatchDfa text = re.isMatchNfa text

theorem parse_eq_ok (hre : new pattern = .ok re) : ∃ ast, parse pattern = .ok ast := by
  obtain ⟨ast, hast, -⟩ := bind_eq_ok.1 hre
  exact ⟨ast, hast⟩

theorem pureOptimisation_iff (hast : parse pattern = .ok ast) (hre : new pattern = .ok re) (text : List Char) :
    re.PureOptimisation text ↔ AcceptedWhole ast text ∨ ¬ Occurs ast text := by
  obtain rfl := new_eq_ok hast hre
  obtain ⟨dfa, hdfa, hfull⟩ := fromNfa_compile ast
  have hsearch := simulate_eq_true ast text
  have hagree : dfa.isMatchFull text = simulate (compile ast) text (hasAnchor true ast) (hasAnchor false ast)
      ↔ AcceptedWhole ast text ∨ ¬ Occurs ast text := by
    rw [Bool.eq_iff_iff, hfull, hsearch]
    constructor
    · intro h
      by_cases hocc : Occurs ast text
      · exact .inl (h.2 hocc)
      · exact .inr hocc
    · rintro (hwhole | hnone)
      · exact iff_of_true hwhole hwhole.occurs
      · exact iff_of_false (fun hwhole => hnone hwhole.occurs) hnone
  rw [← hagree, PureOptimisation, buildDfa, hdfa]
  constructor
  · rintro ⟨built, hbuilt, hbefore, -⟩
    obtain rfl := some_inj.1 hbuilt
    exact hbefore
  · exact fun h => ⟨_, rfl, h, h⟩

/-- **Building the table is a pure optimisation** on the texts that are accepted as a whole and on those in
which the anchors of the pattern let nothing be found. -/
theorem build_dfa_pure_iff (hre : new pattern = .ok re) (text : List Char) : ∃ ast, parse pattern = .ok ast
    ∧ (re.PureOptimisation text ↔ AcceptedWhole ast text ∨ ¬ Occurs ast text) := by
  obtain ⟨ast, hast⟩ := parse_eq_ok hre
  exact ⟨ast, hast, pureOptimisation_iff hast hre text⟩

/-- The pattern `a` on `a`. -/
theorem build_dfa_pure_on_a : ∃ re, new ['a'] = .ok re ∧ re.PureOptimisation ['a'] := by
  have hast : parse ['a'] = .ok (.literal 'a') := by rfl
  have hre : new ['a'] = .ok ⟨compile (.literal 'a'), none, false, false⟩ := by rfl
  obtain ⟨ast, hast', hpure⟩ := build_dfa_pure_iff hre ['a']
  obtain rfl := Except.ok.inj (hast.symm.trans hast')
  refine ⟨_, hre, hpure.2 (.inl ⟨fun c hc => ?_, 'a', rfl, rfl⟩)⟩
  rw [mem_singleton.1 hc]
  decide

/-- The pattern `a` on `ba`: before the table is built the search finds it, afterwards the text as a whole is
no match. -/
theorem build_dfa_changes_answer : ∃ re built, new ['a'] = .ok re ∧ re.buildDfa = some built
    ∧ re.isMatchDfa ['b', 'a'] = true ∧ built.isMatchDfa ['b', 'a'] = false
    ∧ built.isMatchNfa ['b', 'a'] = true ∧ ¬ re.PureOptimisation ['b', 'a'] := by
  have hre : new ['a'] = .ok ⟨compile (.literal 'a'), none, false, false⟩ := by rfl
  have hbefore : isMatchDfa ⟨compile (.literal 'a'), none, false, false⟩ ['b', 'a'] = true := by rfl
  have hafter : (buildDfa ⟨compile (.literal 'a'), none, false, false⟩).map
      (fun built => (built.isMatchDfa ['b', 'a'], built.isMatchNfa ['b', 'a'])) = some (false, true) := by
    rfl
  obtain ⟨built, hbuilt, hanswers⟩ := map_eq_some_iff.1 hafter
  obtain ⟨hdfa, hnfa⟩ := Prod.mk.inj hanswers
  refine ⟨_, built, hre, hbuilt, hbefore, hdfa, hnfa, ?_⟩
  rintro ⟨built', hbuilt', hsame, -⟩
  obtain rfl := some_inj.1 (hbuilt.symm.trans hbuilt')
  rw [hdfa, hbefore] at hsame
  exact absurd hsame Bool.false_ne_true

end Regex

end SystemDesignLabs.RegexEngine

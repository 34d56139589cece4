import SystemDesignLabs.Core.Fallible

/-!
# Regular expressions and automata

The types of `lib.rs` and the language that a regular expression denotes. Texts are lists of characters.
-/

namespace SystemDesignLabs.RegexEngine

open Computability

/-- Regex abstract syntax tree node. -/
inductive Ast where
  | literal (c : Char)
  | anyChar
  | cls (ranges : List (Char × Char)) (negated : Bool)
  | startAnchor
  | endAnchor
  | star (inner : Ast)
  | plus (inner : Ast)
  | question (inner : Ast)
  | concat (left right : Ast)
  | alternation (left right : Ast)
  deriving DecidableEq, Repr

/-- How to match a single character. -/
inductive CharMatcher where
  | exact (expected : Char)
  | anyExceptNewline
  | cls (ranges : List (Char × Char)) (negated : Bool)
  deriving DecidableEq, Repr

/-- A single NFA state. States are named by their index. -/
inductive NfaState where
  | literal (matcher : CharMatcher) (next : Nat)
  | split (next1 next2 : Nat)
  | accepting
  | dead
  deriving DecidableEq, Repr

/-- `CharMatcher::matches`. -/
def CharMatcher.matchesChar (c : Char) : CharMatcher → Bool
  | .exact expected => c == expected
  | .anyExceptNewline => c != '\n'
  | .cls ranges negated =>
    let inClass := ranges.any fun r => decide (r.1 ≤ c) && decide (c ≤ r.2)
    if negated then !inClass else inClass

/-- The NFA: a collection of states plus a start state. -/
structure Nfa where
  states : List NfaState
  start : Nat
  accept : Nat
  deriving DecidableEq, Repr

/-- `Nfa::new`: state 0 is the placeholder of edges that lead nowhere yet, state 1 the match state. -/
def Nfa.new : Nfa :=
  ⟨[.dead, .accepting], 0, 1⟩

/-- The state with an identifier. The code panics where there is none; no automaton that is well formed
comes there. -/
def Nfa.state (nfa : Nfa) (sid : Nat) : NfaState :=
  nfa.states.getD sid .dead

/-! ### Languages -/

/-- A character lies in one of the ranges. -/
def InRanges (ranges : List (Char × Char)) (c : Char) : Prop :=
  ∃ r ∈ ranges, r.1 ≤ c ∧ c ≤ r.2

/-- The words of one character with a property. -/
def oneChar (P : Char → Prop) : Language Char :=
  {w | ∃ c, P c ∧ w = [c]}

/-- The language that a regular expression denotes. Anchors are left to the simulation and read nothing. -/
def Ast.language : Ast → Language Char
  | .literal c => oneChar (· = c)
  | .anyChar => oneChar (· ≠ '\n')
  | .cls ranges false => oneChar (InRanges ranges)
  | .cls ranges true => oneChar fun c => ¬ InRanges ranges c
  | .startAnchor => 1
  | .endAnchor => 1
  | .star inner => inner.language∗
  | .plus inner => inner.language * inner.language∗
  | .question inner => inner.language + 1
  | .concat left right => left.language * right.language
  | .alternation left right => left.language + right.language

/-!
## The parser

The recursive descent parser of `v0.rs`. Its functions take the position at which they start and give the one
at which they stop. What stands in parentheses is parsed by the argument `group`, so that only
`parseAlternation` is recursive; its fuel counts open parentheses. Every parser moves forward, so
that the length of the pattern is fuel enough.
-/

open Core

/-- A parser from a position. -/
abbrev Parser := Nat → Except String (Ast × Nat)

/-! #### Parsing -/

/-- The loop of `parse_class`: the ranges before the closing bracket, and the text from there. -/
def parseRanges : List Char → List (Char × Char) × List Char
  | [] => ([], [])
  | lo :: rest =>
    if lo = ']' then ([], lo :: rest)
    else
      match rest with
      | dash :: hi :: tail =>
        if dash = '-' ∧ hi ≠ ']' then ((lo, hi) :: (parseRanges tail).1, (parseRanges tail).2)
        else ((lo, lo) :: (parseRanges (dash :: hi :: tail)).1, (parseRanges (dash :: hi :: tail)).2)
      | rest => ((lo, lo) :: (parseRanges rest).1, (parseRanges rest).2)

/-- Whether a class is negated, and its text. -/
def classBody (chars : List Char) (start : Nat) : Bool × List Char :=
  let body := chars.drop (start + 1)
  if body.head? = some '^' then (true, body.tail) else (false, body)

def parseClass (chars : List Char) : Parser := fun start =>
  let (negated, body) := classBody chars start
  let (ranges, rest) := parseRanges body
  if rest.isEmpty then .error "unclosed '['"
  else .ok (.cls ranges negated, chars.length - rest.length + 1)

/-- A character that the parser does not expect. -/
def unexpected (c : Char) (pos : Nat) : String :=
  "unexpected character '" ++ c.toString ++ "' at position " ++ toString pos

def parseAtom (group : Parser) (chars : List Char) : Parser := fun start =>
  match chars[start]? with
  | none => .error ("unexpected end of pattern at position " ++ toString start)
  | some '(' => do
    let (inner, pos) ← group (start + 1)
    if chars[pos]? = some ')' then .ok (inner, pos + 1)
    else .error ("unclosed '(' — missing ')' at position " ++ toString pos)
  | some '[' => parseClass chars start
  | some '^' => .ok (.startAnchor, start + 1)
  | some '$' => .ok (.endAnchor, start + 1)
  | some '.' => .ok (.anyChar, start + 1)
  | some '\\' =>
    match chars[start + 1]? with
    | none => .error "trailing backslash"
    | some 'd' => .ok (.cls [('0', '9')] false, start + 2)
    | some 'w' => .ok (.cls [('a', 'z'), ('A', 'Z'), ('0', '9'), ('_', '_')] false, start + 2)
    | some 's' => .ok (.cls [(' ', ' '), ('\t', '\t'), ('\n', '\n'), ('\r', '\r')] false, start + 2)
    | some c => .ok (.literal c, start + 2)
  | some c =>
    if c ≠ '*' ∧ c ≠ '+' ∧ c ≠ '?' ∧ c ≠ ')' ∧ c ≠ '|' then .ok (.literal c, start + 1)
    else .error (unexpected c start)

def parseQuantified (group : Parser) (chars : List Char) : Parser := fun start => do
  let (atom, pos) ← parseAtom group chars start
  match chars[pos]? with
  | some '*' => .ok (.star atom, pos + 1)
  | some '+' => .ok (.plus atom, pos + 1)
  | some '?' => .ok (.question atom, pos + 1)
  | _ => .ok (atom, pos)

/-- The loop of `parse_concat`: the nodes, and the position after them. -/
def concatLoop (group : Parser) (chars : List Char) : Nat → Nat → List Ast → Except String (List Ast × Nat)
  | 0, _, _ => .error "out of fuel"
  | fuel + 1, pos, nodes =>
    match chars[pos]? with
    | none => .ok (nodes, pos)
    | some c =>
      if c = ')' ∨ c = '|' then .ok (nodes, pos)
      else do
        let (atom, newPos) ← parseQuantified group chars pos
        concatLoop group chars fuel newPos (nodes ++ [atom])

def parseConcat (group : Parser) (chars : List Char) : Parser := fun start => do
  let (nodes, pos) ← concatLoop group chars (chars.length + 1) start []
  match nodes with
  | [] => .error ("empty expression at position " ++ toString start)
  | first :: rest => .ok (rest.foldl .concat first, pos)

/-- The loop of `parse_alternation`. -/
def alternationLoop (group : Parser) (chars : List Char) : Nat → Ast → Parser
  | 0, _, _ => .error "out of fuel"
  | fuel + 1, left, pos =>
    if chars[pos]? = some '|' then do
      let (right, newPos) ← parseConcat group chars (pos + 1)
      alternationLoop group chars fuel (.alternation left right) newPos
    else .ok (left, pos)

def parseAlternation (chars : List Char) : Nat → Parser
  | 0, _ => .error "out of fuel"
  | depth + 1, start => do
    let (left, pos) ← parseConcat (parseAlternation chars depth) chars start
    alternationLoop (parseAlternation chars depth) chars (chars.length + 1) left pos

def parse (pattern : List Char) : Except String Ast := do
  let (ast, pos) ← parseAlternation pattern (pattern.length + 1) 0
  match pattern[pos]? with
  | none => .ok ast
  | some c => .error (unexpected c pos)

example : parse ['a', '(', 'b', '|', 'c', ')', '*'] = .ok (.concat (.literal 'a')
    (.star (.alternation (.literal 'b') (.literal 'c')))) := by rfl

end SystemDesignLabs.RegexEngine

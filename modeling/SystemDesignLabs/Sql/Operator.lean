import SystemDesignLabs.Sql.Ast

/-!
# The iterator operators

Each operator is a state with a function `next` that returns a row, `none` at the end, or an error, and
the state after the call. `Operator` is the interface; its field `budget` bounds the number of rows that
are still to come, so that the loops of an operator over its input end.

`Yields s p` says that the calls of `next` from the state `s` return the rows of `p`, one after the other,
and then the end or the error of `p`. For each operator there is one rule that gives what it yields from
what its input yields. The rule of the join speaks of the position inside the right side that the operator
keeps between two calls.
-/

namespace SystemDesignLabs.Sql

open List Core

/-- The iterator interface. -/
class Operator (σ : Type) where
  /-- Reset the operator to its initial state. -/
  open' : σ → σ
  /-- Pull the next row; `none` when exhausted. -/
  next : σ → SqlResult (Option Row) × σ
  budget : σ → Nat
  budget_next : ∀ {s s' : σ} {r : Row}, next s = (.ok (some r), s') → budget s' < budget s

/-- An operator with its state, whatever the type of the state is. -/
structure BoxedOperator where
  State : Type
  operator : Operator State
  state : State

attribute [instance] BoxedOperator.operator

/-! ### What a sequence of calls returns -/

/-- The rows returned before the first call that returns no row, and the error of that call, if it
returns one. -/
structure Pulls where
  rows : List Row
  err : Option SqlError

namespace Pulls

/-- One more row in front. -/
def cons (r : Row) (p : Pulls) : Pulls := ⟨r :: p.rows, p.err⟩

/-- What the caller gets who wants all rows. -/
def result (p : Pulls) : SqlResult (List Row) :=
  match p.err with
  | none => .ok p.rows
  | some e => .error e

end Pulls

section Yields

variable {σ : Type} [Operator σ]

/-- The calls of `next` from `s` return the rows of `p` and then its error or the end. -/
inductive Yields : σ → Pulls → Prop
  | done {s t : σ} : Operator.next s = (.ok none, t) → Yields s ⟨[], none⟩
  | fail {s t : σ} {e : SqlError} : Operator.next s = (.error e, t) → Yields s ⟨[], some e⟩
  | row {s t : σ} {r : Row} {p : Pulls} : Operator.next s = (.ok (some r), t) → Yields t p →
      Yields s (p.cons r)

theorem Yields.congr {s s' : σ} {p : Pulls} (h : Operator.next s = Operator.next s')
    (hy : Yields s' p) : Yields s p := by
  cases hy with
  | done hn => exact .done (h.trans hn)
  | fail hn => exact .fail (h.trans hn)
  | row hn hy => exact .row (h.trans hn) hy

/-- Drain an operator into a list; the counter is above the budget, so that it does not run out. -/
def collectLoop : Nat → σ → List Row → SqlResult (List Row)
  | 0, _, rows => .ok rows
  | n + 1, s, rows => match Operator.next s with
    | (.ok (some row), s') => collectLoop n s' (rows ++ [row])
    | (.ok none, _) => .ok rows
    | (.error e, _) => .error e

def collect (s : σ) : SqlResult (List Row) :=
  collectLoop (Operator.budget (Operator.open' s) + 1) (Operator.open' s) []

theorem collectLoop_eq {s : σ} {p : Pulls} (h : Yields s p) (n : Nat) (hn : Operator.budget s < n) (rows : List Row) :
    collectLoop n s rows = Pulls.result ⟨rows ++ p.rows, p.err⟩ := by
  induction h generalizing n rows with
  | done hnext =>
    obtain ⟨n, rfl⟩ := Nat.exists_eq_add_one_of_ne_zero (Nat.ne_zero_of_lt hn)
    rw [collectLoop, hnext, append_nil]
    rfl
  | fail hnext =>
    obtain ⟨n, rfl⟩ := Nat.exists_eq_add_one_of_ne_zero (Nat.ne_zero_of_lt hn)
    rw [collectLoop, hnext]
    rfl
  | @row s s' r p hnext hy ih =>
    obtain ⟨n, rfl⟩ := Nat.exists_eq_add_one_of_ne_zero (Nat.ne_zero_of_lt hn)
    have hlt := Operator.budget_next hnext
    rw [collectLoop, hnext]
    show collectLoop n s' (rows ++ [r]) = _
    rw [ih n (by omega), append_assoc]
    rfl

/-- `collect` returns what the opened operator yields. -/
theorem collect_eq {s : σ} {p : Pulls} (h : Yields (Operator.open' s) p) : collect s = p.result :=
  collectLoop_eq h _ (Nat.lt_succ_self _) []

end Yields

/-! ### Scans -/

structure SeqScan where
  rows : List Row
  pos : Nat

namespace SeqScan

def new (rows : List Row) : SeqScan := ⟨rows, 0⟩

def next (s : SeqScan) : SqlResult (Option Row) × SeqScan :=
  match s.rows[s.pos]? with
  | some row => (.ok (some row), { s with pos := s.pos + 1 })
  | none => (.ok none, s)

instance : Operator SeqScan where
  open' s := { s with pos := 0 }
  next := next
  budget s := s.rows.length - s.pos
  budget_next := by
    intro s s' r h
    rw [next] at h
    split at h
    case h_1 row hrow =>
      cases h
      have := (List.getElem?_eq_some_iff.1 hrow).1
      show s.rows.length - (s.pos + 1) < s.rows.length - s.pos
      omega
    case h_2 => exact absurd (congrArg Prod.fst h) (by simp)

theorem yields_from (rows : List Row) (pos : Nat) : Yields (SeqScan.mk rows pos) ⟨rows.drop pos, none⟩ := by
  induction hn : rows.length - pos generalizing pos with
  | zero =>
    have hle : rows.length ≤ pos := by omega
    rw [drop_eq_nil_of_le hle]
    apply Yields.done (t := SeqScan.mk rows pos)
    show next ⟨rows, pos⟩ = _
    simp only [next, getElem?_eq_none hle]
  | succ n ih =>
    have hlt : pos < rows.length := by omega
    rw [drop_eq_getElem_cons hlt]
    apply Yields.row (t := SeqScan.mk rows (pos + 1)) (p := ⟨rows.drop (pos + 1), none⟩) _
      (ih (pos + 1) (by omega))
    show next ⟨rows, pos⟩ = _
    simp only [next, getElem?_eq_getElem hlt]

theorem yields (rows : List Row) : Yields (Operator.open' (SeqScan.new rows)) ⟨rows, none⟩ :=
  yields_from rows 0

end SeqScan

/-- The values in front of the first `none`. -/
def takeSome {α : Type} : List (Option α) → List α
  | some a :: rest => a :: takeSome rest
  | _ => []

@[simp] theorem takeSome_map_some {α : Type} (l : List α) : takeSome (l.map some) = l := by
  induction l with
  | nil => rfl
  | cons a l ih =>
    rw [map_cons, takeSome, ih]

structure IndexScan where
  rows : List Row
  matching : List Nat
  pos : Nat

namespace IndexScan

def new (rows : List Row) (matching : List Nat) : IndexScan := ⟨rows, matching, 0⟩

def next (s : IndexScan) : SqlResult (Option Row) × IndexScan :=
  match s.matching[s.pos]? with
  | some rowIdx => (.ok s.rows[rowIdx]?, { s with pos := s.pos + 1 })
  | none => (.ok none, s)

instance : Operator IndexScan where
  open' s := { s with pos := 0 }
  next := next
  budget s := s.matching.length - s.pos
  budget_next := by
    intro s s' r h
    rw [next] at h
    split at h
    case h_1 rowIdx hrowIdx =>
      have hs := congrArg Prod.snd h
      subst hs
      have := (List.getElem?_eq_some_iff.1 hrowIdx).1
      show s.matching.length - (s.pos + 1) < s.matching.length - s.pos
      omega
    case h_2 => exact absurd (congrArg Prod.fst h) (by simp)

theorem yields_from (rows : List Row) (matching : List Nat) (pos : Nat) : Yields (IndexScan.mk rows matching pos)
      ⟨takeSome ((matching.drop pos).map fun i => rows[i]?), none⟩ := by
  induction hn : matching.length - pos generalizing pos with
  | zero =>
    have hle : matching.length ≤ pos := by omega
    rw [drop_eq_nil_of_le hle]
    apply Yields.done (t := IndexScan.mk rows matching pos)
    show next ⟨rows, matching, pos⟩ = _
    simp only [next, getElem?_eq_none hle]
  | succ n ih =>
    have hlt : pos < matching.length := by omega
    rw [drop_eq_getElem_cons hlt, map_cons]
    cases hrow : rows[matching[pos]]? with
    | none =>
      apply Yields.done (t := IndexScan.mk rows matching (pos + 1))
      show next ⟨rows, matching, pos⟩ = _
      simp only [next, getElem?_eq_getElem hlt, hrow]
    | some r =>
      apply Yields.row (t := IndexScan.mk rows matching (pos + 1))
        (p := ⟨takeSome ((matching.drop (pos + 1)).map fun i => rows[i]?), none⟩) _
        (ih (pos + 1) (by omega))
      show next ⟨rows, matching, pos⟩ = _
      simp only [next, getElem?_eq_getElem hlt, hrow]

theorem yields (rows : List Row) (matching : List Nat) : Yields (Operator.open' (IndexScan.new rows matching))
      ⟨takeSome (matching.map fun i => rows[i]?), none⟩ :=
  yields_from rows matching 0

end IndexScan

/-!
## Operators over an input

Filter, projection, join, sort and limit pull their rows from another operator. For each of them a
function on `Pulls` says what it makes of the rows of its input, and a rule `yields` says that the calls
of `next` do just that. The join is the one whose state matters: between two calls it keeps the current
row of the left side and the position after the last match in the right side.
-/

open Operator

variable {σ : Type} [Operator σ]

namespace Pulls

/-- Each row is passed on in a changed form, left out, or ends the run with an error. -/
def rowwise (f : Row → SqlResult (Option Row)) : List Row → Option SqlError → Pulls
  | [], err => ⟨[], err⟩
  | r :: rows, err => match f r with
    | .error e => ⟨[], some e⟩
    | .ok none => rowwise f rows err
    | .ok (some out) => (rowwise f rows err).cons out

end Pulls

/-! #### Filter -/

/-- What the filter does with a row. -/
def filterRow (predicate : Expr) (row : Row) : SqlResult (Option Row) :=
  match evalExpr predicate row with
  | .error e => .error e
  | .ok val => .ok (if val.isTruthy then some row else none)

structure Filter (σ : Type) where
  input : σ
  predicate : Expr

namespace Filter

/-- The loop of `next`: pull until a row satisfies the predicate. The first argument counts the rounds;
it is above the budget of the input. -/
def pull : Nat → Filter σ → SqlResult (Option Row) × Filter σ
  | 0, f => (.ok none, f)
  | n + 1, f => match Operator.next f.input with
    | (.error e, s) => (.error e, { f with input := s })
    | (.ok none, s) => (.ok none, { f with input := s })
    | (.ok (some row), s) => match filterRow f.predicate row with
      | .error e => (.error e, { f with input := s })
      | .ok (some row) => (.ok (some row), { f with input := s })
      | .ok none => pull n { f with input := s }

def next (f : Filter σ) : SqlResult (Option Row) × Filter σ :=
  pull (Operator.budget f.input + 1) f

theorem pull_budget {n : Nat} {f f' : Filter σ} {r : Row} (h : pull n f = (.ok (some r), f')) :
    Operator.budget f'.input < Operator.budget f.input := by
  induction n generalizing f with
  | zero => exact absurd (congrArg Prod.fst h) (by simp [pull])
  | succ n ih =>
    rw [pull] at h
    split at h
    case h_1 => exact absurd (congrArg Prod.fst h) (by simp)
    case h_2 => exact absurd (congrArg Prod.fst h) (by simp)
    case h_3 row s hnext =>
      have hlt := budget_next hnext
      split at h
      · exact absurd (congrArg Prod.fst h) (by simp)
      · cases h
        exact hlt
      · exact lt_trans (ih h) hlt

theorem pull_eq {n m : Nat} {f : Filter σ} (hn : Operator.budget f.input < n)
    (hm : Operator.budget f.input < m) : pull n f = pull m f := by
  induction n generalizing f m with
  | zero => exact absurd hn (Nat.not_lt_zero _)
  | succ n ih =>
    obtain ⟨m, rfl⟩ := Nat.exists_eq_add_one_of_ne_zero (Nat.ne_zero_of_lt hm)
    unfold pull
    split
    · rfl
    · rfl
    · rename_i row s hnext
      have hlt := budget_next hnext
      split
      · rfl
      · rfl
      · apply ih
        · show budget s < n
          omega
        · show budget s < m
          omega

instance : Operator (Filter σ) where
  open' f := { f with input := Operator.open' f.input }
  next := next
  budget f := Operator.budget f.input
  budget_next := pull_budget

theorem yields {s : σ} {p : Pulls} (h : Yields s p) (predicate : Expr) :
    Yields (Filter.mk s predicate) (Pulls.rowwise (filterRow predicate) p.rows p.err) := by
  induction h with
  | @done s s' hnext =>
    apply Yields.done (t := Filter.mk s' predicate)
    show pull _ _ = _
    simp only [pull, hnext]
  | @fail s s' e hnext =>
    apply Yields.fail (t := Filter.mk s' predicate)
    show pull _ _ = _
    simp only [pull, hnext]
  | @row s s' r p hnext hy ih =>
    have hlt := budget_next hnext
    show Yields _ (match filterRow predicate r with
      | .error e => ⟨[], some e⟩
      | .ok none => Pulls.rowwise (filterRow predicate) p.rows p.err
      | .ok (some out) => (Pulls.rowwise (filterRow predicate) p.rows p.err).cons out)
    cases hf : filterRow predicate r with
    | error e =>
      apply Yields.fail (t := Filter.mk s' predicate)
      show pull _ _ = _
      simp only [pull, hnext, hf]
    | ok out =>
      cases out with
      | some out =>
        apply Yields.row (t := Filter.mk s' predicate) _ ih
        show pull _ _ = _
        simp only [pull, hnext, hf]
      | none =>
        -- the row is left out: the call goes on as the next call on the rest of the input
        apply Yields.congr _ ih
        show pull (budget s + 1) _ = pull (budget s' + 1) _
        rw [pull]
        simp only [hnext, hf]
        exact pull_eq hlt (Nat.lt_succ_self _)

end Filter

/-! #### Projection -/

/-- The named columns of a row, or the error that names the first one that is missing. -/
def projectColumns (row : Row) (columns : List String) : SqlResult Row :=
  columns.foldlM (fun out col => do
    let val ← getColumn row col
    .ok (out.insert col val)) SortedMap.empty

/-- What the projection does with a row; no column stands for all. -/
def projectRow (columns : List String) (row : Row) : SqlResult (Option Row) :=
  if columns.isEmpty then .ok (some row)
  else match projectColumns row columns with
    | .error e => .error e
    | .ok out => .ok (some out)

structure Projection (σ : Type) where
  input : σ
  columns : List String

namespace Projection

def next (p : Projection σ) : SqlResult (Option Row) × Projection σ :=
  match Operator.next p.input with
  | (.error e, s) => (.error e, { p with input := s })
  | (.ok none, s) => (.ok none, { p with input := s })
  | (.ok (some row), s) => (projectRow p.columns row, { p with input := s })

theorem projectRow_ne_none (columns : List String) (row : Row) : projectRow columns row ≠ .ok none := by
  rw [projectRow]
  split
  · simp
  · split <;> simp

instance : Operator (Projection σ) where
  open' p := { p with input := Operator.open' p.input }
  next := next
  budget p := Operator.budget p.input
  budget_next := by
    intro p p' r h
    rw [next] at h
    split at h
    case h_1 => exact absurd (congrArg Prod.fst h) (by simp)
    case h_2 => exact absurd (congrArg Prod.fst h) (by simp)
    case h_3 row s hnext =>
      have hs := congrArg Prod.snd h
      subst hs
      exact Operator.budget_next hnext

theorem yields {s : σ} {p : Pulls} (h : Yields s p) (columns : List String) :
    Yields (Projection.mk s columns) (Pulls.rowwise (projectRow columns) p.rows p.err) := by
  induction h with
  | @done s s' hnext =>
    apply Yields.done (t := Projection.mk s' columns)
    show next _ = _
    simp only [next, hnext]
  | @fail s s' e hnext =>
    apply Yields.fail (t := Projection.mk s' columns)
    show next _ = _
    simp only [next, hnext]
  | @row s s' r p hnext hy ih =>
    show Yields _ (match projectRow columns r with
      | .error e => ⟨[], some e⟩
      | .ok none => Pulls.rowwise (projectRow columns) p.rows p.err
      | .ok (some out) => (Pulls.rowwise (projectRow columns) p.rows p.err).cons out)
    cases hf : projectRow columns r with
    | error e =>
      apply Yields.fail (t := Projection.mk s' columns)
      show next _ = _
      simp only [next, hnext, hf]
    | ok out =>
      cases out with
      | some out =>
        apply Yields.row (t := Projection.mk s' columns) _ ih
        show next _ = _
        simp only [next, hnext, hf]
      | none => exact absurd hf (projectRow_ne_none columns r)

end Projection

end SystemDesignLabs.Sql

import SystemDesignLabs.Core.SortedMap

/-!
# Values, predicates and the column store

A column store keeps a list of values for each column, one value for each row. Rows are maps; a row that lacks a
column of the store has `null` there. A query projects the rows that satisfy a predicate on columns.

What a query means is said on the rows themselves: `answer` filters and projects them, a row being read through its
cells (`rowCell`). `select_ofRows` says that the store answers queries in this sense.

Doubles are their bits. They are compared as numbers, so that the two zeros are equal and NaN is equal to nothing and
less than nothing.
-/

namespace SystemDesignLabs.ColumnarStorage

open List Option Core

/-! ### Doubles -/

def f64IsNan (bits : UInt64) : Bool := 2047 * 2 ^ 52 < bits.toNat % 2 ^ 63

/-- A number with the order of the doubles that are not NaN: the magnitude, with its sign. -/
def f64Rank (bits : UInt64) : Int :=
  if bits.toNat < 2 ^ 63 then bits.toNat else -(bits.toNat % 2 ^ 63 : Nat)

/-- `==` of two doubles. -/
def f64Eq (a b : UInt64) : Bool := !f64IsNan a && !f64IsNan b && f64Rank a = f64Rank b

/-- `<` of two doubles. -/
def f64Lt (a b : UInt64) : Bool := !f64IsNan a && !f64IsNan b && f64Rank a < f64Rank b

/-! ### Values and predicates -/

inductive Value where
  | int (n : Int64)
  | float (bits : UInt64)
  | str (s : String)
  | bool (b : Bool)
  | null
  deriving DecidableEq

/-- `==` of two values. -/
def Value.eq : Value → Value → Bool
  | int a, int b => a = b
  | float a, float b => f64Eq a b
  | str s, str t => s = t
  | bool a, bool b => a = b
  | null, null => true
  | _, _ => false

/-- `ColumnData`: one value for each row. -/
abbrev ColumnData := List Value

/-- The columns of a store or of a row group, by name. -/
abbrev ColumnMap := SortedMap String ColumnData

abbrev Row := SortedMap String Value

inductive Predicate where
  | eq (col : String) (expected : Value)
  | lt (col : String) (threshold : Value)
  | and (left right : Predicate)
  deriving DecidableEq

namespace Predicate

/-- `column_name`: the column of the outermost leaf to the left. -/
def columnName : Predicate → String
  | eq col _ | lt col _ => col
  | and left _ => left.columnName

/-- All columns that the predicate tests. -/
def columns : Predicate → List String
  | eq col _ | lt col _ => [col]
  | and left right => left.columns ++ right.columns

/-- Some leaf asks for less than a double. -/
def comparesFloat : Predicate → Bool
  | lt _ (.float _) => true
  | lt _ _ | eq _ _ => false
  | and left right => left.comparesFloat || right.comparesFloat

end Predicate

/-- The columns with the given names, all empty. -/
def emptyColumns (names : List String) : ColumnMap :=
  names.foldl (fun columns name => columns.insert name []) .empty

/-- The value of a column at a row, if there is one. -/
def cell (columns : ColumnMap) (col : String) (rowIdx : Nat) : Option Value :=
  (columns.get col).bind (·[rowIdx]?)

/-- The values of the projected columns at a row. -/
def project (columns : ColumnMap) (projection : List String) (rowIdx : Nat) : List Value :=
  projection.map fun col => (cell columns col rowIdx).getD .null

/-! ### The store -/

structure ColumnStore where
  columns : ColumnMap
  numRows : Nat

namespace ColumnStore

def new (columnNames : List String) : ColumnStore := ⟨emptyColumns columnNames, 0⟩

def appendRow (store : ColumnStore) (row : Row) : ColumnStore where
  columns := store.columns.mapEntries fun name col => col ++ [(row.get name).getD .null]
  numRows := store.numRows + 1

/-- The store to which the rows were appended. -/
def ofRows (columnNames : List String) (rows : List Row) : ColumnStore :=
  rows.foldl appendRow (new columnNames)

def evalPredicate (store : ColumnStore) : Predicate → Nat → Bool
  | .eq col expected, rowIdx =>
    match cell store.columns col rowIdx with
    | some actual => actual.eq expected
    | none => false
  | .lt col threshold, rowIdx =>
    match cell store.columns col rowIdx, threshold with
    | some (.int a), .int b => a < b
    | some (.float a), .float b => f64Lt a b
    | _, _ => false
  | .and left right, rowIdx => store.evalPredicate left rowIdx && store.evalPredicate right rowIdx

def select (store : ColumnStore) (projection : List String) (filter : Option Predicate) : List (List Value) :=
  (List.range store.numRows).flatMap fun rowIdx =>
    if filter.all fun pred => store.evalPredicate pred rowIdx then [project store.columns projection rowIdx] else []

end ColumnStore

/-! ### What a query asks for -/

/-- What a row of a table has in a column: its value or `null`, and nothing in a column that the table lacks. -/
def rowCell (names : List String) (row : Row) (col : String) : Option Value :=
  if col ∈ names then some ((row.get col).getD .null) else none

/-- A value is less than a threshold: both are integers or both are doubles. -/
def Value.less : Value → Value → Bool
  | int a, int b => a < b
  | float a, float b => f64Lt a b
  | _, _ => false

/-- The row with the given cells satisfies the predicate. -/
def Predicate.matches (cellOf : String → Option Value) : Predicate → Bool
  | eq col expected => (cellOf col).any (·.eq expected)
  | lt col threshold => (cellOf col).any (·.less threshold)
  | and left right => left.matches cellOf && right.matches cellOf

/-- The projections of the rows that pass a test on their cells. -/
def answer (test : (String → Option Value) → Bool) (names projection : List String) (rows : List Row) :
    List (List Value) :=
  rows.flatMap fun row =>
    if test (rowCell names row) then [projection.map fun col => (rowCell names row col).getD .null] else []

/-- The columns that a query reads. -/
def queryColumns (projection : List String) (filter : Option Predicate) : List String :=
  projection ++ (filter.elim [] Predicate.columns)

theorem matches_congr {cellOf cellOf' : String → Option Value} {p : Predicate}
    (h : ∀ col ∈ p.columns, cellOf col = cellOf' col) : p.matches cellOf = p.matches cellOf' := by
  induction p with
  | eq col expected => rw [Predicate.matches, Predicate.matches, h col (mem_singleton.2 rfl)]
  | lt col threshold => rw [Predicate.matches, Predicate.matches, h col (mem_singleton.2 rfl)]
  | and left right ihl ihr =>
    rw [Predicate.matches, Predicate.matches, ihl fun col hc => h col (mem_append_left _ hc),
      ihr fun col hc => h col (mem_append_right _ hc)]

theorem flatMap_range {α β : Type} {l : List α} {f : Nat → List β} {g : α → List β}
    (h : ∀ i a, l[i]? = some a → f i = g a) : (List.range l.length).flatMap f = l.flatMap g := by
  induction l generalizing f with
  | nil => rfl
  | cons a l ih =>
    rw [length_cons, range_succ_eq_map, flatMap_cons, flatMap_cons, flatMap_map,
      h 0 a rfl, ih fun i b hb => h (i + 1) b hb]

/-- A scan answers the query when every cell that the query reads is the one of its row. -/
theorem flatMap_range_eq_answer {columns : ColumnMap} {names projection used : List String} {rows : List Row}
    {passes : Nat → Bool} {test : (String → Option Value) → Bool}
    (hcell : ∀ col ∈ used, ∀ i row, rows[i]? = some row → cell columns col i = rowCell names row col)
    (hproj : ∀ col ∈ projection, col ∈ used) (hpass : ∀ i, passes i = test fun col => cell columns col i)
    (htest : ∀ cellOf cellOf' : String → Option Value, (∀ col ∈ used, cellOf col = cellOf' col) →
      test cellOf = test cellOf') :
    ((List.range rows.length).flatMap fun i => if passes i then [project columns projection i] else []) =
      answer test names projection rows := by
  apply flatMap_range
  intro i row hrow
  have hpasses : passes i = test (rowCell names row) :=
    (hpass i).trans (htest _ _ fun col hcol => hcell col hcol i row hrow)
  have hprojected : project columns projection i = projection.map fun col => (rowCell names row col).getD .null :=
    map_congr_left fun col hcol => by rw [hcell col (hproj col hcol) i row hrow]
  rw [hpasses, hprojected]

/-! ### The store answers queries -/

theorem get_emptyColumns (names : List String) (col : String) :
    (emptyColumns names).get col = if col ∈ names then some [] else none := by
  have hfold : ∀ columns : ColumnMap,
      (names.foldl (fun columns name => columns.insert name []) columns).get col =
        if col ∈ names then some [] else columns.get col := by
    induction names with
    | nil => exact fun columns => (if_neg not_mem_nil).symm
    | cons name names ih =>
      intro columns
      rw [foldl_cons, ih, SortedMap.get_insert]
      by_cases hcol : col = name
      · simp [hcol]
      · simp [hcol]
  exact hfold .empty

namespace ColumnStore

/-- The store holds the rows: every column has their values in order. -/
structure Stores (store : ColumnStore) (names : List String) (rows : List Row) : Prop where
  numRows : store.numRows = rows.length
  columns : ∀ col, store.columns.get col =
    if col ∈ names then some (rows.map fun row => (row.get col).getD .null) else none

theorem stores_new (names : List String) : (new names).Stores names [] :=
  ⟨rfl, get_emptyColumns names⟩

theorem Stores.appendRow {store : ColumnStore} {names : List String} {rows : List Row}
    (h : store.Stores names rows) (row : Row) : (store.appendRow row).Stores names (rows ++ [row]) where
  numRows := by
    rw [length_append, ← h.numRows]
    rfl
  columns col := by
    show (store.columns.mapEntries fun name c => c ++ [(row.get name).getD .null]).get col = _
    rw [SortedMap.get_mapEntries, h.columns]
    split
    · rw [map_some, map_append]
      rfl
    · rfl

theorem stores_ofRows (names : List String) (rows : List Row) : (ofRows names rows).Stores names rows := by
  have hfold : ∀ (store : ColumnStore) (before : List Row), store.Stores names before →
      (rows.foldl ColumnStore.appendRow store).Stores names (before ++ rows) := by
    induction rows with
    | nil =>
      intro store before h
      rwa [append_nil]
    | cons row rows ih =>
      intro store before h
      have hrest := ih (store.appendRow row) (before ++ [row]) (h.appendRow row)
      rwa [append_assoc] at hrest
  exact hfold (new names) [] (stores_new names)

theorem evalPredicate_eq_matches (store : ColumnStore) (p : Predicate) (i : Nat) :
    store.evalPredicate p i = p.matches fun col => cell store.columns col i := by
  induction p with
  | eq col expected =>
    show (match cell store.columns col i with
      | some actual => actual.eq expected
      | none => false) = (cell store.columns col i).any (·.eq expected)
    cases cell store.columns col i <;> rfl
  | lt col threshold =>
    show (match cell store.columns col i, threshold with
      | some (.int a), .int b => decide (a < b)
      | some (.float a), .float b => f64Lt a b
      | _, _ => false) = (cell store.columns col i).any (·.less threshold)
    cases cell store.columns col i with
    | none => rfl
    | some actual => cases actual <;> cases threshold <;> rfl
  | and left right ihl ihr =>
    rw [evalPredicate, Predicate.matches, ihl, ihr]

theorem Stores.cell_eq {store : ColumnStore} {names : List String} {rows : List Row}
    (h : store.Stores names rows) (col : String) {i : Nat} {row : Row} (hrow : rows[i]? = some row) :
    cell store.columns col i = rowCell names row col := by
  rw [cell, h.columns, rowCell]
  split
  · rw [bind_some, getElem?_map, hrow, map_some]
  · rfl

/-- The store answers queries: it projects the appended rows that satisfy the predicate, in order. -/
theorem select_ofRows (names projection : List String) (filter : Option Predicate) (rows : List Row) :
    (ofRows names rows).select projection filter =
      answer (fun cellOf => filter.all fun p => p.matches cellOf) names projection rows := by
  have hstores := stores_ofRows names rows
  rw [select, hstores.numRows]
  refine @flatMap_range_eq_answer _ names projection (queryColumns projection filter) rows _ _
    (fun col _ i row hrow => hstores.cell_eq col hrow) (fun col hcol => mem_append_left _ hcol) ?_ ?_
  · intro i
    cases filter with
    | none => rfl
    | some p => exact evalPredicate_eq_matches _ p i
  · intro cellOf cellOf' hcells
    cases filter with
    | none => rfl
    | some p => exact matches_congr fun col hcol => hcells col (mem_append_right _ hcol)

end ColumnStore

end SystemDesignLabs.ColumnarStorage

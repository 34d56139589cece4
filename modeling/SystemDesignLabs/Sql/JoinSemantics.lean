import SystemDesignLabs.Sql.Agreement
import SystemDesignLabs.Sql.Parser

/-!
# What a join means

An `ON` clause names a column on each side of an equality, both with their tables. The parser keeps the names of the
columns only (`parseJoin_tokens`): the left one is taken from the table of `FROM`, the right one from the joined table.
The rows behind the join are the pairs with equal values, left row by left row, merged into one row in which a column
of the joined table hides the one of the same name, and the `WHERE` clause is evaluated on the merged row
(**`join_rows`**). A statement with its sides the other way round, a `WHERE` clause on a hidden column and two `NULL`s
show where this is not what the tables before the dots say (`qualifiers_not_kept`).
-/

namespace SystemDesignLabs.Sql

open Core

/-! ### The clause -/

/-- An `ON` clause as it is written: `leftTable.leftCol = rightTable.rightCol`. -/
structure OnClause where
  leftTable : String
  leftCol : String
  rightTable : String
  rightCol : String

namespace OnClause

def tokens (on : OnClause) : List Token :=
  [.ident on.leftTable, .dot, .ident on.leftCol, .eq, .ident on.rightTable, .dot, .ident on.rightCol]

/-- What the parser keeps of it. -/
def clause (on : OnClause) (joined : String) : JoinClause := ⟨joined, on.leftCol, on.rightCol⟩

/-- The equality is true when the left column is taken from the left row and the right column from the right row. -/
def holds (on : OnClause) (left right : Row) : Bool :=
  evalBinop (valueOrNull left on.leftCol) .eq (valueOrNull right on.rightCol) = .bool true

/-- The value of a column in the row of the table that is named before the dot. -/
def qualifiedValue (joined : String) (left right : Row) (table col : String) : Value :=
  if table = joined then valueOrNull right col else valueOrNull left col

/-- The equality is true when each column is taken from the table that is named before the dot. -/
def holdsQualified (on : OnClause) (joined : String) (left right : Row) : Bool :=
  evalBinop (qualifiedValue joined left right on.leftTable on.leftCol) .eq
    (qualifiedValue joined left right on.rightTable on.rightCol) = .bool true

/-- Both columns are `NULL`, or missing. -/
def BothNull (on : OnClause) (left right : Row) : Prop :=
  valueOrNull left on.leftCol = .null ∧ valueOrNull right on.rightCol = .null

end OnClause

/-! ### The pairs -/

/-- The merged pairs that satisfy a condition, left row by left row. -/
def pairs (condition : Row → Row → Bool) (leftRows rightRows : List Row) : List Row :=
  leftRows.flatMap fun left => (rightRows.filter (condition left)).map (mergeRows left)

theorem joins_iff (on : OnClause) (left right : Row) :
    joins on.leftCol on.rightCol left right = true ↔ on.holds left right = true ∨ on.BothNull left right := by
  rw [joins, OnClause.holds, OnClause.BothNull, decide_eq_true_iff, decide_eq_true_iff, evalBinop]
  generalize valueOrNull left on.leftCol = l
  generalize valueOrNull right on.rightCol = r
  by_cases hl : l = .null
  · subst hl
    simp [eq_comm]
  · by_cases hr : r = .null
    · subst hr
      simp [hl]
    · simp [hl, hr]

/-- The index of the base table makes no difference: there is none for the `WHERE` clause, or it is an index of a
database in which no row is shadowed. -/
def IndexAgrees (tables : Tables) (indexes : IndexManager) (name : String) (join : Option JoinClause)
    (whereClause : Option Expr) : Prop :=
  usableIndex indexes name whereClause = none ∨
    ∃ db, Reached db ∧ tables = db.tables ∧ indexes = db.indexes ∧ NotShadowed tables indexes name join whereClause

theorem filterPulls_baseRows {tables : Tables} {indexes : IndexManager} {name : String} {join : Option JoinClause}
    {whereClause : Option Expr} (hindex : IndexAgrees tables indexes name join whereClause) {table : Table}
    (htable : tables.get name = some table) :
    filterPulls whereClause ((baseRows indexes name table whereClause).flatMap (expand tables join)) =
      filterPulls whereClause (table.rows.flatMap (expand tables join)) := by
  rcases hindex with hnone | ⟨db, hdb, rfl, rfl, hshadow⟩
  · rw [baseRows, hnone]
  · rcases baseRows_cases (inv_of_reached hdb) htable whereClause with
      ⟨hbase, -⟩ | ⟨col, v, hwhere, hidx, hbase, hsome⟩
    · rw [hbase]
    · obtain ⟨e, rfl, he⟩ := Option.bind_eq_some_iff.1 hwhere
      rw [hbase, filterPulls_expand he hsome, filterPulls_expand he fun row hrow => hsome row (List.mem_filter.1 hrow).1]
      congr 1
      exact (filtered_eq_iff htable hwhere hidx hsome).2 hshadow

/-- **The rows of a join**: the tree under the projection gives the pairs for which the equality of the `ON` clause is
true, with the left column from the table of `FROM` and the right one from the joined table, in left-major order, and
of them those whose merged row satisfies the `WHERE` clause. Nothing is said of pairs with `NULL` in both columns, nor
of a base scan through an index that hides a row. -/
theorem join_rows {tables : Tables} {indexes : IndexManager} {name joined : String} {left right : Table}
    (hleft : tables.get name = some left) (hright : tables.get joined = some right) (on : OnClause)
    (columns : List SelectCol) (whereClause : Option Expr)
    (hindex : IndexAgrees tables indexes name (some (on.clause joined)) whereClause) :
    ∃ tree : BoxedOperator, plan tables indexes ⟨columns, name, some (on.clause joined), whereClause, none, none, none⟩ =
        .ok (tree.projection (projectedColumns columns)) ∧
      ∃ condition : Row → Row → Bool,
        (∀ l r, ¬ on.BothNull l r → condition l r = on.holds l r) ∧
        ((∀ row ∈ pairs condition left.rows right.rows, ¬ WhereFails whereClause row) →
          collect tree.state = .ok ((pairs condition left.rows right.rows).filter (keeps whereClause))) ∧
        ((∃ row ∈ pairs condition left.rows right.rows, WhereFails whereClause row) →
          ∃ e, collect tree.state = .error e) := by
  obtain ⟨base, hbase, hgives⟩ := planBaseScan_gives hleft indexes whereClause
  have hexpand : expand tables (some (on.clause joined)) = matchesOf on.leftCol on.rightCol right.rows := by
    funext row
    show matchesOf on.leftCol on.rightCol (rowsOf tables joined) row = _
    rw [rowsOf, hright]
  have hgivesJoin : (base.join right.rows on.leftCol on.rightCol).Gives
      ⟨(baseRows indexes name left whereClause).flatMap (expand tables (some (on.clause joined))), none⟩ := by
    rw [hexpand]
    exact NestedLoopJoin.yields hgives right.rows on.leftCol on.rightCol 0
  have hcollect := collect_eq (gives_filter hgivesJoin whereClause)
  rw [filterPulls_baseRows hindex hleft, hexpand] at hcollect
  refine ⟨planFilter whereClause (base.join right.rows on.leftCol on.rightCol), ?_, joins on.leftCol on.rightCol, ?_,
    fun hnone => ?_, fun hsome => ?_⟩
  · rw [plan]
    simp only [hbase, planJoin, OnClause.clause, hright]
    rfl
  · intro l r hnull
    rw [Bool.eq_iff_iff, joins_iff, or_iff_left hnull]
  · rw [hcollect]
    show (filterPulls whereClause (pairs (joins on.leftCol on.rightCol) left.rows right.rows)).result = _
    rw [filterPulls_of_not_fails hnone]
    rfl
  · obtain ⟨e, he⟩ := filterPulls_of_fails hsome
    refine ⟨e, ?_⟩
    rw [hcollect]
    show (filterPulls whereClause (pairs (joins on.leftCol on.rightCol) left.rows right.rows)).result = _
    rw [Pulls.result, he]

/-! ### Where the tables before the dots are lost -/

/-- A table with one row. -/
def oneRow (name : String) (cells : List (String × Value)) : Table :=
  ⟨name, cells.map fun p => ⟨p.1, .int, true⟩, [SortedMap.empty.insertAll cells]⟩

/-- Two tables. -/
def twoTables (left right : Table) : Tables := (SortedMap.empty.insert left.name left).insert right.name right

/-- `SELECT * FROM name JOIN joined ON ...` -/
def selectJoin (name joined : String) (on : OnClause) (whereClause : Option Expr) : SelectStmt :=
  ⟨[.star], name, some (on.clause joined), whereClause, none, none, none⟩

/-- **Three joins that are not what the clause says with its tables**: the sides the other way round
(`FROM t JOIN u ON u.a = t.b`), which gives no row although `a` of `u` is `b` of `t`; a `WHERE` clause on a column that the joined table hides (`t.a = 1`, where `u` has an `a`, too), which drops
the row; and `NULL` on both sides, which gives a row although the equality is not true. -/
theorem qualifiers_not_kept :
    (let t := oneRow "t" [("a", .int 1), ("b", .int 2)]
     let u := oneRow "u" [("a", .int 2), ("b", .int 3)]
     let on : OnClause := ⟨"u", "a", "t", "b"⟩
     parse ([.select, .star, .from', .ident "t", .join, .ident "u", .on] ++ on.tokens ++ [.eof]) =
         .ok [.select (selectJoin "t" "u" on none)] ∧
       runSelect (twoTables t u) IndexManager.new (selectJoin "t" "u" on none) = .ok [] ∧
       (pairs (on.holdsQualified "u") t.rows u.rows).length = 1) ∧
    (let t := oneRow "t" [("a", .int 1), ("b", .int 7)]
     let u := oneRow "u" [("a", .int 2), ("c", .int 7)]
     let on : OnClause := ⟨"t", "b", "u", "c"⟩
     let whereClause : Expr := .binOp (.qualifiedColumn "t" "a") .eq (.literal (.int 1))
     runSelect (twoTables t u) IndexManager.new (selectJoin "t" "u" on (some whereClause)) = .ok [] ∧
       (pairs (on.holdsQualified "u") t.rows u.rows).length = 1 ∧
       t.rows.map (valueOrNull · "a") = [.int 1]) ∧
    (let t := oneRow "t" [("b", .null)]
     let u := oneRow "u" [("c", .null)]
     let on : OnClause := ⟨"t", "b", "u", "c"⟩
     (runSelect (twoTables t u) IndexManager.new (selectJoin "t" "u" on none)).map List.length = .ok 1 ∧
       pairs (on.holdsQualified "u") t.rows u.rows = []) := by
  decide

/-- The rows of a join without an index. -/
theorem join_rows_users_orders :
    let users := oneRow "users" [("id", .int 1)]
    let orders := oneRow "orders" [("order_id", .int 100), ("user_id", .int 1)]
    let on : OnClause := ⟨"users", "id", "orders", "user_id"⟩
    ∃ tree : BoxedOperator, plan (twoTables users orders) IndexManager.new
        ⟨[.star], "users", some (on.clause "orders"), none, none, none, none⟩ =
        .ok (tree.projection (projectedColumns [.star])) ∧
      ∃ condition : Row → Row → Bool,
        (∀ l r, ¬ on.BothNull l r → condition l r = on.holds l r) ∧
        ((∀ row ∈ pairs condition users.rows orders.rows, ¬ WhereFails none row) →
          collect tree.state = .ok ((pairs condition users.rows orders.rows).filter (keeps none))) ∧
        ((∃ row ∈ pairs condition users.rows orders.rows, WhereFails none row) → ∃ e, collect tree.state = .error e) :=
  join_rows (by rfl) (by rfl) ⟨"users", "id", "orders", "user_id"⟩ [.star] none (Or.inl rfl)

end SystemDesignLabs.Sql

import SystemDesignLabs.Sql.Database

/-!
# The direct executor

The evaluator without plans and operators that `labs/mini-sql-db` started with: it runs over the rows of a table and
evaluates the `WHERE` clause on each. It has no log, no indexes and no transactions, and a `SELECT` knows no join, no
order and no limit.

An `INSERT` stores each tuple before it looks at the next one, where the database builds all rows first; the second half
of the module says what that means for one that fails.
-/

namespace SystemDesignLabs.Sql

open Core

/-- Direct executor: no query plan, no operator tree. -/
structure DirectExecutor where
  tables : Tables

abbrev DirectExec (α : Type) := EStateM SqlError DirectExecutor α

namespace DirectExecutor

def new : DirectExecutor := ⟨SortedMap.empty⟩

/-- A result of a function that does not touch the tables. -/
def ofResult {α : Type} : SqlResult α → DirectExec α
  | .ok a => pure a
  | .error e => throw e

def execCreateTable (ct : CreateTableStmt) : DirectExec QueryResult := do
  let ex ← get
  match ex.tables.get ct.name with
  | some _ => throw (.executionError ("table '" ++ ct.name ++ "' already exists"))
  | none =>
    let schema ← ofResult (resolveSchema ct.columns)
    set (DirectExecutor.mk (ex.tables.insert ct.name (Table.new ct.name schema)))
    return QueryResult.empty ("CREATE TABLE " ++ ct.name)

/-! ### Insert -/

/-- One tuple: its length, then value by value. -/
def buildRow (schema : List Column) (colNames : List String) (exprRow : List Expr) : SqlResult Row :=
  if exprRow.length ≠ colNames.length then
    .error (.executionError ("INSERT: " ++ toString colNames.length ++ " columns listed but " ++
      toString exprRow.length ++ " values provided"))
  else (colNames.zip exprRow).foldlM (storeValue schema) (nullRow schema)

/-- The end of a table with one more row. -/
def pushRow (ex : DirectExecutor) (tableName : String) (row : Row) : DirectExecutor :=
  ⟨ex.tables.adjust tableName fun t => { t with rows := t.rows ++ [row] }⟩

/-- The loop over the tuples: each is stored before the next one is looked at. -/
def insertRows (tableName : String) (schema : List Column) (colNames : List String) :
    List (List Expr) → Nat → DirectExec Nat
  | [], inserted => pure inserted
  | exprRow :: exprRows, inserted => do
    let row ← ofResult (buildRow schema colNames exprRow)
    modify fun ex => ex.pushRow tableName row
    insertRows tableName schema colNames exprRows (inserted + 1)

/-- The columns that the values are for. -/
def insertColumns (table : Table) (ins : InsertStmt) : List String :=
  if ins.columns.isEmpty then table.schema.map Column.name else ins.columns

def execInsert (ins : InsertStmt) : DirectExec QueryResult := do
  let ex ← get
  match ex.tables.get ins.table with
  | none => throw (.tableNotFound ins.table)
  | some table =>
    match (insertColumns table ins).find? fun col => !table.hasColumn col with
    | some col => throw (.columnNotFound col)
    | none =>
      let inserted ← insertRows ins.table table.schema (insertColumns table ins) ins.rows 0
      return ⟨[], [], inserted, "INSERT " ++ toString inserted ++ " row(s)"⟩

/-! ### Select -/

/-- One round of the loop of `exec_select`. -/
def selectRow (whereClause : Option Expr) (resultRows : List Row) (row : Row) : SqlResult (List Row) :=
  match whereClause with
  | none => .ok (resultRows ++ [row])
  | some pred => do
    let val ← evalExpr pred row
    .ok (if val.isTruthy then resultRows ++ [row] else resultRows)

/-- The rows on which the `WHERE` clause is truthy; the first error ends the loop. -/
def selectRows (whereClause : Option Expr) (rows : List Row) : SqlResult (List Row) :=
  rows.foldlM (selectRow whereClause) []

/-- The names of the selected columns; a star stands for all. -/
def outputColumns (columns : List SelectCol) (schema : List Column) : List String :=
  if columns.any SelectCol.isStar then schema.map Column.name else columns.map SelectCol.name

/-- The named columns of a row, `NULL` for one that it does not have. -/
def projectNames (colNames : List String) (row : Row) : Row :=
  colNames.foldl (fun out col => out.insert col (valueOrNull row col)) SortedMap.empty

/-- Project a column list over a set of rows; every column must be in the schema. -/
def project (rows : List Row) (columns : List SelectCol) (schema : List Column) :
    SqlResult (List String × List Row) :=
  let colNames := outputColumns columns schema
  match colNames.find? fun name => !schema.any fun c => c.name = name with
  | some name => .error (.columnNotFound name)
  | none => .ok (colNames, rows.map (projectNames colNames))

def execSelect (tables : Tables) (sel : SelectStmt) : SqlResult QueryResult :=
  match tables.get sel.from' with
  | none => .error (.tableNotFound sel.from')
  | some table => do
    let resultRows ← selectRows sel.whereClause table.rows
    let (columns, projected) ← project resultRows sel.columns table.schema
    .ok (QueryResult.fromRows columns projected)

/-! ### Statements -/

def execute : Stmt → DirectExec QueryResult
  | .createTable ct => execCreateTable ct
  | .insert ins => execInsert ins
  | .select sel => do
    let ex ← get
    ofResult (execSelect ex.tables sel)
  | .createIndex _ => pure (QueryResult.empty "CREATE INDEX (no-op in v0)")
  | .begin => pure (QueryResult.empty "BEGIN (no-op in v0)")
  | .commit => pure (QueryResult.empty "COMMIT (no-op in v0)")
  | .rollback => pure (QueryResult.empty "ROLLBACK (no-op in v0)")

end DirectExecutor

/-!
## An `INSERT` that fails

The database builds the rows of all tuples before it logs and stores any of them, so that an `INSERT` that fails leaves
it as it was. The direct executor stores tuple by tuple: what comes before the first tuple that it does not accept
stays (`insertRows_spec`). So there a failed `INSERT` changes nothing if and only if no tuple is stored before one that
is not accepted (**`failed_insert_changes_nothing_iff`**).
-/

open List SortedMap

namespace DirectExecutor

/-! #### Tuples that are accepted -/

/-- The expression is a literal that has the type of the column of the name, or can be brought to it. -/
def Stores (schema : List Column) (p : String × Expr) : Prop :=
  ∃ val col coerced, p.2 = .literal val ∧ schema.find? (fun c => c.name = p.1) = some col ∧
    coerceValue val col.colType = .ok coerced

/-- A tuple with a value for each column that the column can store. -/
def Accepts (schema : List Column) (colNames : List String) (exprRow : List Expr) : Prop :=
  exprRow.length = colNames.length ∧ ∀ p ∈ colNames.zip exprRow, Stores schema p

theorem storeValue_ok_iff (schema : List Column) (row : Row) (p : String × Expr) :
    (∃ row', storeValue schema row p = .ok row') ↔ Stores schema p := by
  constructor
  · rintro ⟨row', h⟩
    obtain ⟨val, hval, h⟩ := bind_eq_ok.1 h
    have hliteral : p.2 = .literal val := by
      cases hp : p.2 <;> rw [hp] at hval <;> cases hval
      rfl
    cases hcol : schema.find? fun c => c.name = p.1 with
    | none =>
      rw [hcol] at h
      cases h
    | some col =>
      rw [hcol] at h
      obtain ⟨coerced, hcoerced, -⟩ := bind_eq_ok.1 h
      exact ⟨val, col, coerced, hliteral, hcol, hcoerced⟩
  · rintro ⟨val, col, coerced, hliteral, hcol, hcoerced⟩
    refine ⟨row.insert p.1 coerced, ?_⟩
    refine bind_eq_ok.2 ⟨val, by rw [hliteral]; rfl, ?_⟩
    rw [hcol]
    exact bind_eq_ok.2 ⟨coerced, hcoerced, rfl⟩

theorem foldlM_storeValue_ok_iff (schema : List Column) (row : Row) (l : List (String × Expr)) :
    (∃ row', l.foldlM (storeValue schema) row = .ok row') ↔ ∀ p ∈ l, Stores schema p := by
  induction l generalizing row with
  | nil => exact ⟨fun _ p hp => absurd hp not_mem_nil, fun _ => ⟨row, rfl⟩⟩
  | cons p l ih =>
    rw [foldlM_cons, forall_mem_cons]
    constructor
    · rintro ⟨row', h⟩
      obtain ⟨row₁, hrow₁, hrest⟩ := bind_eq_ok.1 h
      exact ⟨(storeValue_ok_iff schema row p).1 ⟨row₁, hrow₁⟩, (ih row₁).1 ⟨row', hrest⟩⟩
    · rintro ⟨hp, hl⟩
      obtain ⟨row₁, hrow₁⟩ := (storeValue_ok_iff schema row p).2 hp
      obtain ⟨row', hrest⟩ := (ih row₁).2 hl
      exact ⟨row', bind_eq_ok.2 ⟨row₁, hrow₁, hrest⟩⟩

/-- A row is built from a tuple if and only if the tuple is accepted. -/
theorem buildRow_ok_iff (schema : List Column) (colNames : List String) (exprRow : List Expr) :
    (∃ row, buildRow schema colNames exprRow = .ok row) ↔ Accepts schema colNames exprRow := by
  rw [buildRow, Accepts]
  split
  · next hlen =>
    refine ⟨?_, fun h => absurd h.1 hlen⟩
    rintro ⟨row, h⟩
    cases h
  · next hlen =>
    rw [foldlM_storeValue_ok_iff]
    exact (and_iff_right (not_not.1 hlen)).symm

/-! #### What the loop leaves behind -/

/-- Rows at the end of a table. -/
def pushRows (ex : DirectExecutor) (tableName : String) (rows : List Row) : DirectExecutor :=
  ⟨ex.tables.adjust tableName fun t => { t with rows := t.rows ++ rows }⟩

theorem pushRows_nil (ex : DirectExecutor) (tableName : String) : ex.pushRows tableName [] = ex := by
  obtain ⟨tables⟩ := ex
  rw [pushRows]
  congr 1
  ext1 name
  rw [get_adjust]
  split
  · next heq =>
    rw [heq]
    cases tables.get tableName with
    | none => rfl
    | some table =>
      rw [Option.map_some, append_nil]
  · rfl

theorem pushRows_cons (ex : DirectExecutor) (tableName : String) (row : Row) (rows : List Row) :
    (ex.pushRow tableName row).pushRows tableName rows = ex.pushRows tableName (row :: rows) := by
  rw [pushRows, pushRow, pushRows]
  congr 1
  ext1 name
  rw [get_adjust, get_adjust, get_adjust]
  by_cases hname : name = tableName
  · rw [if_pos hname, if_pos hname, if_pos hname]
    cases get ex.tables name with
    | none => rfl
    | some table =>
      show some { table with rows := (table.rows ++ [row]) ++ rows } = some { table with rows := _ }
      rw [append_assoc, singleton_append]
  · rw [if_neg hname, if_neg hname, if_neg hname]

theorem pushRows_tables_eq_iff {ex : DirectExecutor} {tableName : String} {table : Table}
    (htable : ex.tables.get tableName = some table) (rows : List Row) :
    (ex.pushRows tableName rows).tables = ex.tables ↔ rows = [] := by
  constructor
  · intro h
    have hget : (ex.pushRows tableName rows).tables.get tableName =
        some { table with rows := table.rows ++ rows } := by
      rw [pushRows, get_adjust, if_pos rfl, htable]
      rfl
    rw [h, htable] at hget
    have hrows := congrArg Table.rows (Option.some.inj hget)
    exact append_right_eq_self.1 hrows.symm
  · rintro rfl
    rw [pushRows_nil]

variable (tableName : String) (schema : List Column) (colNames : List String)

/-- The loop stores the rows of the tuples in front of the first one that is not accepted, and fails if there is
one. -/
theorem insertRows_spec (exprRows : List (List Expr)) (inserted : Nat) (ex : DirectExecutor) :
    ∃ rows, (rows = [] ↔ ∀ first ∈ exprRows.head?, ¬ Accepts schema colNames first) ∧
      Holds (insertRows tableName schema colNames exprRows inserted) ex
        (fun _ ex' => ex' = ex.pushRows tableName rows ∧ ∀ exprRow ∈ exprRows, Accepts schema colNames exprRow)
        (fun ex' => ex' = ex.pushRows tableName rows ∧ ∃ exprRow ∈ exprRows, ¬ Accepts schema colNames exprRow) := by
  induction exprRows generalizing inserted ex with
  | nil =>
    refine ⟨[], ⟨fun _ first hfirst => (by cases hfirst), fun _ => rfl⟩, ?_⟩
    exact Holds.pure ⟨(pushRows_nil ex tableName).symm, fun _ h => absurd h not_mem_nil⟩
  | cons exprRow exprRows ih =>
    have hbuild := buildRow_ok_iff schema colNames exprRow
    cases hrow : buildRow schema colNames exprRow with
    | error e =>
      have hnot : ¬ Accepts schema colNames exprRow := by
        rw [← hbuild, hrow]
        rintro ⟨row, h⟩
        cases h
      refine ⟨[], ⟨fun _ first hfirst => (by cases hfirst; exact hnot), fun _ => rfl⟩, ?_⟩
      rw [insertRows, hrow]
      apply Holds.bind
      exact Holds.throw ⟨(pushRows_nil ex tableName).symm, exprRow, mem_cons_self, hnot⟩
    | ok row =>
      have haccepts : Accepts schema colNames exprRow := hbuild.1 ⟨row, hrow⟩
      obtain ⟨rows, -, hrest⟩ := ih (inserted + 1) (ex.pushRow tableName row)
      refine ⟨row :: rows, ⟨fun h => (by cases h), fun h => absurd haccepts (h exprRow rfl)⟩, ?_⟩
      rw [insertRows, hrow]
      apply Holds.bind
      apply Holds.pure
      apply Holds.bind
      apply Holds.modify
      refine hrest.mono ?_ ?_
      · rintro _ _ ⟨rfl, hall⟩
        exact ⟨pushRows_cons ex tableName row rows, forall_mem_cons.2 ⟨haccepts, hall⟩⟩
      · rintro _ ⟨rfl, bad, hbad, hnot⟩
        exact ⟨pushRows_cons ex tableName row rows, bad, mem_cons_of_mem _ hbad, hnot⟩

/-! #### When nothing changes -/

/-- The table exists and has the columns, the first tuple is accepted, and a later one is not. -/
def StoresPart (tables : Tables) (ins : InsertStmt) : Prop :=
  ∃ table first rest, tables.get ins.table = some table ∧
    (∀ col ∈ insertColumns table ins, table.hasColumn col = true) ∧ ins.rows = first :: rest ∧
    Accepts table.schema (insertColumns table ins) first ∧
    ∃ exprRow ∈ rest, ¬ Accepts table.schema (insertColumns table ins) exprRow

theorem execInsert_unchanged_iff (ex : DirectExecutor) (ins : InsertStmt) :
    (∀ e ex', execInsert ins ex = .error e ex' → ex'.tables = ex.tables) ↔ ¬ StoresPart ex.tables ins := by
  have hspec : Holds (execInsert ins) ex (fun _ _ => ¬ StoresPart ex.tables ins)
      (fun ex' => ex'.tables = ex.tables ↔ ¬ StoresPart ex.tables ins) := by
    rw [execInsert]
    apply Holds.bind
    apply Holds.get
    cases htable : ex.tables.get ins.table with
    | none =>
      refine Holds.throw ⟨fun _ => ?_, fun _ => rfl⟩
      rintro ⟨table, first, rest, htable', -⟩
      rw [htable] at htable'
      cases htable'
    | some table =>
      have hparts : StoresPart ex.tables ins ↔
          (∀ col ∈ insertColumns table ins, table.hasColumn col = true) ∧
            (∃ first ∈ ins.rows.head?, Accepts table.schema (insertColumns table ins) first) ∧
            ∃ exprRow ∈ ins.rows, ¬ Accepts table.schema (insertColumns table ins) exprRow := by
        constructor
        · rintro ⟨t, first, rest, ht, hcols, hrows, hfirst, bad, hbad, hnot⟩
          cases htable.symm.trans ht
          exact ⟨hcols, ⟨first, by rw [hrows]; rfl, hfirst⟩, bad, by rw [hrows]; exact mem_cons_of_mem _ hbad,
            hnot⟩
        · rintro ⟨hcols, ⟨first, hhead, hfirst⟩, bad, hbad, hnot⟩
          obtain ⟨rest, hrows⟩ := head?_eq_some_iff.1 hhead
          rw [hrows] at hbad
          refine ⟨table, first, rest, htable, hcols, hrows, hfirst, bad, ?_, hnot⟩
          exact (mem_cons.1 hbad).resolve_left fun heq => hnot (heq ▸ hfirst)
      rw [hparts]
      cases hfind : (insertColumns table ins).find? fun col => !table.hasColumn col with
      | some col =>
        dsimp only
        rw [hfind]
        refine Holds.throw ⟨fun _ h => ?_, fun _ => rfl⟩
        have hcol := find?_some hfind
        rw [h.1 col (mem_of_find?_eq_some hfind)] at hcol
        cases hcol
      | none =>
        have hcols : ∀ col ∈ insertColumns table ins, table.hasColumn col = true := by
          intro col hcol
          simpa using find?_eq_none.1 hfind col hcol
        obtain ⟨rows, hnil, hloop⟩ :=
          insertRows_spec ins.table table.schema (insertColumns table ins) ins.rows 0 ex
        dsimp only
        rw [hfind]
        apply Holds.bind
        refine hloop.mono ?_ ?_
        · rintro inserted _ ⟨rfl, hall⟩
          apply Holds.pure
          rintro ⟨-, -, bad, hbad, hnot⟩
          exact hnot (hall bad hbad)
        · rintro _ ⟨rfl, hbad⟩
          rw [pushRows_tables_eq_iff htable, hnil]
          constructor
          · rintro hhead ⟨-, ⟨first, hfirst, haccepts⟩, -⟩
            exact hhead first hfirst haccepts
          · intro hnot first hfirst haccepts
            exact hnot ⟨hcols, ⟨first, hfirst, haccepts⟩, hbad⟩
  rw [Holds] at hspec
  cases hexec : execInsert ins ex with
  | ok result ex' =>
    rw [hexec] at hspec
    exact ⟨fun _ => hspec, fun _ e ex' h => by cases h⟩
  | error e ex' =>
    rw [hexec] at hspec
    constructor
    · intro h
      exact hspec.1 (h e ex' rfl)
    · intro hnot e₁ ex₁ h
      cases h
      exact hspec.2 hnot

/-- **A failed `INSERT` changes nothing in the database; in the direct executor it changes nothing if and only if no
tuple is stored before one that is not accepted.** -/
theorem failed_insert_changes_nothing_iff (db : Database) (ex : DirectExecutor) (ins : InsertStmt) :
    (∀ (e : SqlError) (db' : Database), execStmt (.insert ins) db = .error e db' → db' = db) ∧
    ((∀ e ex', execute (.insert ins) ex = .error e ex' → ex'.tables = ex.tables) ↔ ¬ StoresPart ex.tables ins) := by
  refine ⟨fun e db' h => ?_, execInsert_unchanged_iff ex ins⟩
  have hspec := execStmt_spec (.insert ins) db
  rw [Holds, h] at hspec
  exact hspec

/-- `INSERT INTO t VALUES (1), ('x')` into a table with one column of type `INT`: it fails, and 1 is stored. -/
theorem failed_insert_stores_first :
    (match execute (.createTable ⟨"t", [⟨"id", "INT", true⟩]⟩) new with
      | .error _ _ => none
      | .ok _ ex =>
        match execute (.insert ⟨"t", [], [[.literal (.int 1)], [.literal (.text "x")]]⟩) ex with
        | .error e ex' => some (e, (ex.tables.get "t").map Table.rows, (ex'.tables.get "t").map Table.rows)
        | .ok _ _ => none) =
      some (.typeMismatch "INT" "'x'", some [], some [SortedMap.empty.insert "id" (.int 1)]) := by
  rfl

end DirectExecutor

end SystemDesignLabs.Sql

import SystemDesignLabs.Core.Fallible
import SystemDesignLabs.Core.TransitionSystem
import SystemDesignLabs.Sql.Planner

/-!
# The write-ahead log

The log is a list of entries, each with the number of its transaction. A row is logged with its values as
text. A replay takes the entries of the committed transactions and gives, for each table, the logged
schema and the logged rows. `replayWith` is the replay for any set of transaction numbers, so that one can
speak of what a replay would give if the active transaction were committed.
-/

namespace SystemDesignLabs.Sql

open List Core

/-- Column names with the names of their types. -/
abbrev LoggedSchema := List (String × String)

/-- A row with its values as text. -/
abbrev LoggedRow := SortedMap String String

inductive LogEntry where
  | beginTx (txId : Nat)
  | commitTx (txId : Nat)
  | rollbackTx (txId : Nat)
  | createTable (txId : Nat) (tableName : String) (schema : LoggedSchema)
  | insertRow (txId : Nat) (tableName : String) (row : LoggedRow)

def LogEntry.txId : LogEntry → Nat
  | beginTx id => id
  | commitTx id => id
  | rollbackTx id => id
  | createTable id _ _ => id
  | insertRow id _ _ => id

structure Wal where
  entries : List LogEntry
  nextTxId : Nat

/-- The values of a row as text. -/
def serialize (row : Row) : LoggedRow := row.mapEntries fun _ v => v.display

structure ReplayResult where
  schemas : SortedMap String LoggedSchema
  rows : SortedMap String (List LoggedRow)

namespace Wal

def new : Wal := ⟨[], 1⟩

def push (w : Wal) (e : LogEntry) : Wal := { w with entries := w.entries ++ [e] }

/-- Begin a new transaction; its number is the counter before the call. -/
def beginTx (w : Wal) : Wal := { w.push (.beginTx w.nextTxId) with nextTxId := w.nextTxId + 1 }

def commitTx (w : Wal) (txId : Nat) : Wal := w.push (.commitTx txId)

def rollbackTx (w : Wal) (txId : Nat) : Wal := w.push (.rollbackTx txId)

def logCreateTable (w : Wal) (txId : Nat) (tableName : String) (schema : LoggedSchema) : Wal :=
  w.push (.createTable txId tableName schema)

def logInsert (w : Wal) (txId : Nat) (tableName : String) (row : Row) : Wal :=
  w.push (.insertRow txId tableName (serialize row))

end Wal

/-- The transactions with a commit entry. -/
def committedTxIds (entries : List LogEntry) : List Nat :=
  entries.filterMap fun e => match e with
    | .commitTx id => some id
    | _ => none

namespace ReplayResult

def empty : ReplayResult := ⟨SortedMap.empty, SortedMap.empty⟩

/-- One entry of a committed transaction. -/
def apply (r : ReplayResult) : LogEntry → ReplayResult
  | .createTable _ tableName schema => { r with schemas := r.schemas.insert tableName schema }
  | .insertRow _ tableName row =>
    { r with rows := r.rows.insert tableName ((r.rows.get tableName).getD [] ++ [row]) }
  | _ => r

end ReplayResult

/-- Replay the entries whose transaction passes the test. -/
def replayWith (committed : Nat → Bool) (entries : List LogEntry) : ReplayResult :=
  entries.foldl (fun r e => if committed e.txId then r.apply e else r) .empty

/-- Replay the committed transactions. -/
def Wal.replay (w : Wal) : ReplayResult :=
  replayWith (fun id => (committedTxIds w.entries).contains id) w.entries

/-! ### What new entries change -/

theorem committedTxIds_append (es es' : List LogEntry) :
    committedTxIds (es ++ es') = committedTxIds es ++ committedTxIds es' :=
  filterMap_append

theorem txId_of_committed {es : List LogEntry} {id : Nat} (h : id ∈ committedTxIds es) : ∃ e ∈ es, e.txId = id := by
  obtain ⟨e, he, hid⟩ := mem_filterMap.1 h
  cases e with
  | commitTx n =>
    cases hid
    exact ⟨_, he, rfl⟩
  | beginTx n => exact absurd hid (by simp)
  | rollbackTx n => exact absurd hid (by simp)
  | createTable n t s => exact absurd hid (by simp)
  | insertRow n t r => exact absurd hid (by simp)

theorem replayWith_append (committed : Nat → Bool) (es es' : List LogEntry) : replayWith committed (es ++ es') =
      es'.foldl (fun r e => if committed e.txId then r.apply e else r) (replayWith committed es) :=
  foldl_append

theorem replayWith_congr {c c' : Nat → Bool} {es : List LogEntry}
    (h : ∀ e ∈ es, c e.txId = c' e.txId) : replayWith c es = replayWith c' es := by
  rw [replayWith]
  apply foldl_ext
  intro r e he
  rw [h e he]

theorem replayWith_append_of_false {c : Nat → Bool} (es : List LogEntry) {es' : List LogEntry}
    (h : ∀ e ∈ es', c e.txId = false) : replayWith c (es ++ es') = replayWith c es := by
  rw [replayWith_append]
  induction es' with
  | nil => rfl
  | cons e es' ih =>
    rw [foldl_cons, h e mem_cons_self, if_neg Bool.false_ne_true]
    exact ih fun e he => h e (mem_cons_of_mem _ he)

theorem replayWith_append_of_true {c : Nat → Bool} (es : List LogEntry) {es' : List LogEntry}
    (h : ∀ e ∈ es', c e.txId = true) : replayWith c (es ++ es') = es'.foldl ReplayResult.apply (replayWith c es) := by
  rw [replayWith_append]
  apply foldl_ext
  intro r e he
  rw [h e he, if_pos rfl]

theorem foldl_apply_insertRow (r : ReplayResult) (txId : Nat) (tableName : String) (rows : List LoggedRow) :
    ((rows.map (LogEntry.insertRow txId tableName)).foldl ReplayResult.apply r).schemas = r.schemas ∧
      ∀ name, ((rows.map (LogEntry.insertRow txId tableName)).foldl ReplayResult.apply r).rows.get name =
        if name = tableName ∧ rows ≠ [] then some ((r.rows.get tableName).getD [] ++ rows) else r.rows.get name := by
  induction rows generalizing r with
  | nil => exact ⟨rfl, fun name => by simp⟩
  | cons row rows ih =>
    rw [map_cons, foldl_cons]
    refine ⟨(ih _).1, fun name => ?_⟩
    rw [(ih _).2]
    simp only [ReplayResult.apply, SortedMap.get_insert, if_true]
    by_cases hname : name = tableName
    · subst hname
      by_cases hrows : rows = []
      · simp [hrows]
      · simp [hrows]
    · simp [hname]

end SystemDesignLabs.Sql

/-!
## The database

A statement outside a transaction is its own transaction: begin, log, commit, apply. Inside a transaction
a statement is logged under the number of the transaction and applied at once; a rollback throws the
tables and the indexes away and rebuilds the tables from the log.

`execStmt_spec` says, once for all, what a statement does to the database: a statement that fails leaves
it as it was, and `Outcome` lists what the others do.
-/

namespace SystemDesignLabs.Sql

open Core

/-- The tables, the indexes, the log, and the number of the active transaction. -/
structure Database where
  tables : Tables
  indexes : IndexManager
  wal : Wal
  activeTx : Option Nat

abbrev Exec (α : Type) := EStateM SqlError Database α

/-- A result of a function that does not touch the database. -/
def ofResult {α : Type} : SqlResult α → Exec α
  | .ok a => pure a
  | .error e => throw e

namespace Database

def new : Database := ⟨SortedMap.empty, IndexManager.new, Wal.new, none⟩

end Database

/-- Log under the active transaction; without one, begin a transaction, log, and commit. -/
def logInTx (log : Nat → Wal → Wal) : Exec PUnit := do
  let db ← get
  match db.activeTx with
  | some txId => modify fun db => { db with wal := log txId db.wal }
  | none =>
    let txId := db.wal.nextTxId
    modify fun db => { db with wal := db.wal.beginTx }
    modify fun db => { db with wal := log txId db.wal }
    modify fun db => { db with wal := db.wal.commitTx txId }

/-! #### Create -/

def resolveColumn (colDef : ColDef) : SqlResult Column :=
  match ColType.fromStr colDef.colType with
  | some colType => .ok ⟨colDef.name, colType, colDef.nullable⟩
  | none => .error (.executionError ("unknown type '" ++ colDef.colType ++ "'"))

def resolveSchema (columns : List ColDef) : SqlResult (List Column) := columns.mapM resolveColumn

/-- The schema as it is logged: the names with the names of the types. -/
def loggedSchema (schema : List Column) : LoggedSchema :=
  schema.map fun c => (c.name, c.colType.debug)

def execCreateTable (ct : CreateTableStmt) : Exec QueryResult := do
  let db ← get
  match db.tables.get ct.name with
  | some _ => throw (.executionError ("table '" ++ ct.name ++ "' already exists"))
  | none =>
    let schema ← ofResult (resolveSchema ct.columns)
    logInTx fun txId wal => wal.logCreateTable txId ct.name (loggedSchema schema)
    modify fun db => { db with tables := db.tables.insert ct.name (Table.new ct.name schema) }
    return QueryResult.empty ("CREATE TABLE " ++ ct.name)

def execCreateIndex (ci : CreateIndexStmt) : Exec QueryResult := do
  let db ← get
  match db.tables.get ci.table with
  | none => throw (.tableNotFound ci.table)
  | some table =>
    if table.hasColumn ci.column then
      modify fun db =>
        { db with indexes := db.indexes.buildIndex ci.table ci.column table.rows }
      return QueryResult.empty
        ("CREATE INDEX " ++ ci.indexName ++ " ON " ++ ci.table ++ "(" ++ ci.column ++ ")")
    else throw (.columnNotFound ci.column)

/-! #### Insert -/

def coerceValue (val : Value) (expected : ColType) : SqlResult Value :=
  match val, expected with
  | .int n, .int => .ok (.int n)
  | .text s, .text => .ok (.text s)
  | .bool b, .bool => .ok (.bool b)
  | .null, _ => .ok .null
  | .text s, .int => match parseI64 s with
    | some n => .ok (.int n)
    | none => .error (.typeMismatch "INT" ("'" ++ s ++ "'"))
  | .int n, .bool => .ok (.bool (n != 0))
  | .bool b, .int => .ok (.int (if b then 1 else 0))
  | .int n, .text => .ok (.text (Value.int n).display)
  | .bool b, .text => .ok (.text (Value.bool b).display)
  | .text s, .bool => .error (.typeMismatch ColType.bool.debug (Value.text s).typeName)

def resolveInsertColumns (table : Table) (ins : InsertStmt) : SqlResult (List String) :=
  if ins.columns.isEmpty then .ok (table.schema.map Column.name)
  else match ins.columns.find? fun col => !table.hasColumn col with
    | some col => .error (.columnNotFound col)
    | none => .ok ins.columns

/-- Every column of the schema with `NULL`. -/
def nullRow (schema : List Column) : Row :=
  schema.foldl (fun row col => row.insert col.name .null) SortedMap.empty

/-- Evaluate, coerce to the type of the first column of the name, and store. The names were checked
before, so that there is such a column. -/
def storeValue (schema : List Column) (row : Row) (p : String × Expr) : SqlResult Row := do
  let val ← evalLiteral p.2
  match schema.find? fun c => c.name = p.1 with
  | none => .error (.columnNotFound p.1)
  | some col =>
    let coerced ← coerceValue val col.colType
    .ok (row.insert p.1 coerced)

def buildRow (schema : List Column) (colNames : List String) (exprs : List Expr) : SqlResult Row :=
  if exprs.length ≠ colNames.length then
    .error (.executionError ("INSERT: " ++ toString colNames.length ++ " columns but " ++
      toString exprs.length ++ " values"))
  else (colNames.zip exprs).foldlM (storeValue schema) (nullRow schema)

def buildRows (table : Table) (ins : InsertStmt) (colNames : List String) : SqlResult (List Row) :=
  ins.rows.mapM (buildRow table.schema colNames)

namespace Database

/-- Put one row into the indexes and at the end of its table. -/
def pushRow (db : Database) (tableName : String) (row : Row) : Database :=
  match db.tables.get tableName with
  | none => db
  | some table =>
    { db with
      indexes := db.indexes.indexRow tableName row table.rows.length
      tables := db.tables.insert tableName { table with rows := table.rows ++ [row] } }

def applyRows (db : Database) (tableName : String) (rows : List Row) : Database :=
  rows.foldl (fun db row => db.pushRow tableName row) db

end Database

def logRows (txId : Nat) (tableName : String) (rows : List Row) (wal : Wal) : Wal :=
  rows.foldl (fun wal row => wal.logInsert txId tableName row) wal

def execInsert (ins : InsertStmt) : Exec QueryResult := do
  let db ← get
  match db.tables.get ins.table with
  | none => throw (.tableNotFound ins.table)
  | some table =>
    let colNames ← ofResult (resolveInsertColumns table ins)
    let rowsToInsert ← ofResult (buildRows table ins colNames)
    logInTx fun txId wal => logRows txId ins.table rowsToInsert wal
    modify fun db => db.applyRows ins.table rowsToInsert
    let inserted := rowsToInsert.length
    return ⟨[], [], inserted, "INSERT " ++ toString inserted ++ " row(s)"⟩

/-! #### Select -/

def deriveOutputColumns (tables : Tables) (sel : SelectStmt) (rows : List Row) : List String :=
  if sel.columns.any SelectCol.isStar then
    match tables.get sel.from' with
    | some table => table.schema.map Column.name
    | none => match rows with
      | row :: _ => row.entries.map Prod.fst
      | [] => []
  else sel.columns.map SelectCol.name

def execSelect (tables : Tables) (indexes : IndexManager) (sel : SelectStmt) :
    SqlResult QueryResult :=
  match runSelect tables indexes sel with
  | .error e => .error e
  | .ok rows => .ok (QueryResult.fromRows (deriveOutputColumns tables sel rows) rows)

/-! #### Transactions -/

def beginTx : Exec QueryResult := do
  let db ← get
  match db.activeTx with
  | some _ => throw (.transactionError "transaction already active")
  | none =>
    modify fun db => { db with wal := db.wal.beginTx, activeTx := some db.wal.nextTxId }
    return QueryResult.empty "BEGIN"

def commitTx : Exec QueryResult := do
  let db ← get
  match db.activeTx with
  | none => throw (.transactionError "no active transaction")
  | some txId =>
    modify fun db => { db with wal := db.wal.commitTx txId, activeTx := none }
    return QueryResult.empty "COMMIT"

/-- A logged column, if the name of its type is known. -/
def loggedColumn (p : String × String) : Option Column :=
  (ColType.fromStr p.2).map fun colType => ⟨p.1, colType, true⟩

/-- A row from its log entry: each column of the schema, parsed at its type. -/
def rebuildRow (schema : List Column) (raw : LoggedRow) : Row :=
  schema.foldl (fun row col =>
    row.insert col.name (parseValueFromStr ((raw.get col.name).getD "") col.colType))
    SortedMap.empty

/-- The tables with the logged schemas, without rows. -/
def rebuildSchemas (schemas : SortedMap String LoggedSchema) : Tables :=
  SortedMap.empty.insertAll
    (schemas.entries.map fun p => (p.1, Table.new p.1 (p.2.filterMap loggedColumn)))

/-- Append the logged rows of the tables that exist. -/
def rebuildRows (rows : SortedMap String (List LoggedRow)) (tables : Tables) : Tables :=
  rows.entries.foldl (fun tables p => tables.adjust p.1 fun table =>
    { table with rows := table.rows ++ p.2.map (rebuildRow table.schema) }) tables

def rebuildTables (replay : ReplayResult) : Tables :=
  rebuildRows replay.rows (rebuildSchemas replay.schemas)

def Database.rebuildFromWal (db : Database) : Database :=
  { db with tables := rebuildTables db.wal.replay, indexes := IndexManager.new }

def rollbackTx : Exec QueryResult := do
  let db ← get
  match db.activeTx with
  | none => throw (.transactionError "no active transaction to rollback")
  | some txId =>
    modify fun db => { db with wal := db.wal.rollbackTx txId, activeTx := none }
    modify Database.rebuildFromWal
    return QueryResult.empty "ROLLBACK"

def execStmt : Stmt → Exec QueryResult
  | .createTable ct => execCreateTable ct
  | .createIndex ci => execCreateIndex ci
  | .insert ins => execInsert ins
  | .select sel => do
    let db ← get
    ofResult (execSelect db.tables db.indexes sel)
  | .begin => beginTx
  | .commit => commitTx
  | .rollback => rollbackTx

/-! #### What a statement does to the database -/

namespace Database

/-- Log entries under the active transaction, or as a transaction of their own. -/
def logged (db : Database) (entries : Nat → List LogEntry) : Database :=
  match db.activeTx with
  | some txId => { db with wal := { db.wal with entries := db.wal.entries ++ entries txId } }
  | none =>
    let txId := db.wal.nextTxId
    { db with wal := ⟨db.wal.entries ++ .beginTx txId :: (entries txId ++ [.commitTx txId]),
        txId + 1⟩ }

/-- What a successful `CREATE TABLE` does. -/
def created (db : Database) (name : String) (schema : List Column) : Database :=
  { db.logged (fun txId => [.createTable txId name (loggedSchema schema)]) with
    tables := db.tables.insert name (Table.new name schema) }

/-- What a successful `INSERT` does. -/
def inserted (db : Database) (tableName : String) (rows : List Row) : Database :=
  (db.logged fun txId => (rows.map serialize).map (.insertRow txId tableName)).applyRows
    tableName rows

end Database

/-- The rows that an `INSERT` adds. -/
def insertedRows (table : Table) (ins : InsertStmt) : SqlResult (List Row) := do
  let colNames ← resolveInsertColumns table ins
  buildRows table ins colNames

/-- What a successful statement does. -/
inductive Outcome (db : Database) : Stmt → Database → Prop
  | createTable {ct : CreateTableStmt} {schema : List Column} :
      db.tables.get ct.name = none → resolveSchema ct.columns = .ok schema →
      Outcome db (.createTable ct) (db.created ct.name schema)
  | createIndex {ci : CreateIndexStmt} {table : Table} :
      db.tables.get ci.table = some table → table.hasColumn ci.column = true →
      Outcome db (.createIndex ci)
        { db with indexes := db.indexes.buildIndex ci.table ci.column table.rows }
  | insert {ins : InsertStmt} {table : Table} {rows : List Row} :
      db.tables.get ins.table = some table → insertedRows table ins = .ok rows →
      Outcome db (.insert ins) (db.inserted ins.table rows)
  | select {sel : SelectStmt} : Outcome db (.select sel) db
  | begin : db.activeTx = none →
      Outcome db .begin { db with wal := db.wal.beginTx, activeTx := some db.wal.nextTxId }
  | commit {txId : Nat} : db.activeTx = some txId →
      Outcome db .commit { db with wal := db.wal.commitTx txId, activeTx := none }
  | rollback {txId : Nat} : db.activeTx = some txId →
      Outcome db .rollback
        { db with wal := db.wal.rollbackTx txId, activeTx := none }.rebuildFromWal

variable {db : Database}

theorem Holds_ofResult {α : Type} {r : SqlResult α} {post : α → Database → Prop} {onError : Database → Prop}
    (hok : ∀ a, r = .ok a → post a db) (herr : onError db) : Holds (ofResult r) db post onError := by
  cases r with
  | ok a => exact Holds.pure (hok a rfl)
  | error e => exact Holds.throw herr

theorem entries_logRows (txId : Nat) (tableName : String) (rows : List Row) (wal : Wal) :
    logRows txId tableName rows wal =
      { wal with entries := wal.entries ++ (rows.map serialize).map (.insertRow txId tableName) } := by
  induction rows generalizing wal with
  | nil => simp [logRows]
  | cons row rows ih =>
    show logRows txId tableName rows (wal.logInsert txId tableName row) = _
    rw [ih]
    simp [Wal.logInsert, Wal.push]

theorem logInTx_spec (db : Database) {log : Nat → Wal → Wal} {entries : Nat → List LogEntry}
    (h : ∀ txId wal, log txId wal = { wal with entries := wal.entries ++ entries txId }) :
    Holds (logInTx log) db (fun _ db' => db' = db.logged entries) (fun _ => False) := by
  rw [logInTx]
  apply Holds.bind
  apply Holds.get
  cases hactive : db.activeTx with
  | some txId =>
    apply Holds.modify
    simp only [Database.logged, hactive, h]
  | none =>
    apply Holds.bind
    apply Holds.modify
    apply Holds.bind
    apply Holds.modify
    apply Holds.modify
    simp only [Database.logged, hactive, h, Wal.beginTx, Wal.commitTx, Wal.push, List.append_assoc,
      List.nil_append, List.cons_append]

theorem execCreateTable_spec (ct : CreateTableStmt) (db : Database) :
    Holds (execCreateTable ct) db (fun _ db' => Outcome db (.createTable ct) db') (fun db' => db' = db) := by
  rw [execCreateTable]
  apply Holds.bind
  apply Holds.get
  cases hname : db.tables.get ct.name with
  | some table => exact Holds.throw rfl
  | none =>
    apply Holds.bind
    refine Holds_ofResult ?_ rfl
    intro schema hschema
    apply Holds.bind
    apply (logInTx_spec db fun txId wal => rfl).mono _ fun _ h => h.elim
    rintro _ _ rfl
    apply Holds.bind
    apply Holds.modify
    apply Holds.pure
    have houtcome := Outcome.createTable hname hschema
    rw [Database.created] at houtcome
    have htables : (db.logged fun txId => [.createTable txId ct.name (loggedSchema schema)]).tables = db.tables := by
      rw [Database.logged]
      split <;> rfl
    simp only [htables]
    exact houtcome

theorem execCreateIndex_spec (ci : CreateIndexStmt) (db : Database) :
    Holds (execCreateIndex ci) db (fun _ db' => Outcome db (.createIndex ci) db') (fun db' => db' = db) := by
  rw [execCreateIndex]
  apply Holds.bind
  apply Holds.get
  cases htable : db.tables.get ci.table with
  | none => exact Holds.throw rfl
  | some table =>
    simp only
    split
    case isTrue hcol =>
      apply Holds.bind
      apply Holds.modify
      exact Holds.pure (Outcome.createIndex htable hcol)
    case isFalse => exact Holds.throw rfl

theorem execInsert_spec (ins : InsertStmt) (db : Database) :
    Holds (execInsert ins) db (fun _ db' => Outcome db (.insert ins) db') (fun db' => db' = db) := by
  rw [execInsert]
  apply Holds.bind
  apply Holds.get
  cases htable : db.tables.get ins.table with
  | none => exact Holds.throw rfl
  | some table =>
    apply Holds.bind
    refine Holds_ofResult ?_ rfl
    intro colNames hcols
    apply Holds.bind
    refine Holds_ofResult ?_ rfl
    intro rows hrows
    have hinserted : insertedRows table ins = .ok rows := by
      rw [insertedRows]
      rw [hcols]
      exact hrows
    apply Holds.bind
    apply (logInTx_spec db fun txId wal => entries_logRows txId ins.table rows wal).mono _
      fun _ h => h.elim
    rintro _ _ rfl
    apply Holds.bind
    apply Holds.modify
    exact Holds.pure (Outcome.insert htable hinserted)

/-- What a statement does. If it fails, the database is as it was before. -/
theorem execStmt_spec (stmt : Stmt) (db : Database) :
    Holds (execStmt stmt) db (fun _ db' => Outcome db stmt db') (fun db' => db' = db) := by
  cases stmt with
  | createTable ct => exact execCreateTable_spec ct db
  | createIndex ci => exact execCreateIndex_spec ci db
  | insert ins => exact execInsert_spec ins db
  | select sel =>
    apply Holds.bind
    apply Holds.get
    exact Holds_ofResult (fun _ _ => Outcome.select) rfl
  | begin =>
    apply Holds.bind
    apply Holds.get
    cases hactive : db.activeTx with
    | some txId => exact Holds.throw rfl
    | none =>
      apply Holds.bind
      apply Holds.modify
      exact Holds.pure (Outcome.begin hactive)
  | commit =>
    apply Holds.bind
    apply Holds.get
    cases hactive : db.activeTx with
    | none => exact Holds.throw rfl
    | some txId =>
      apply Holds.bind
      apply Holds.modify
      exact Holds.pure (Outcome.commit hactive)
  | rollback =>
    apply Holds.bind
    apply Holds.get
    cases hactive : db.activeTx with
    | none => exact Holds.throw rfl
    | some txId =>
      apply Holds.bind
      apply Holds.modify
      apply Holds.bind
      apply Holds.modify
      exact Holds.pure (Outcome.rollback hactive)

/-! #### Runs -/

/-- The database after a statement, whether it succeeds or fails. -/
def Database.after (db : Database) (stmt : Stmt) : Database :=
  match execStmt stmt db with
  | .ok _ db' => db'
  | .error _ db' => db'

/-- One step of the database: a statement is executed. -/
def Database.step (db : Database) (stmt : Stmt) : Option Database := some (db.after stmt)

theorem after_cases (db : Database) (stmt : Stmt) : db.after stmt = db ∨ Outcome db stmt (db.after stmt) := by
  have hspec := execStmt_spec stmt db
  rw [Holds] at hspec
  rw [Database.after]
  cases hexec : execStmt stmt db with
  | ok a db' =>
    rw [hexec] at hspec
    exact Or.inr hspec
  | error e db' =>
    rw [hexec] at hspec
    exact Or.inl hspec

theorem after_begin (h : db.activeTx = none) :
    db.after .begin = { db with wal := db.wal.beginTx, activeTx := some db.wal.nextTxId } := by
  simp [Database.after, execStmt, beginTx, h, EStateM.bind, bind, get, getThe, MonadStateOf.get,
    EStateM.get, modify, modifyGet, MonadStateOf.modifyGet, EStateM.modifyGet, pure, EStateM.pure]

theorem after_rollback {txId : Nat} (h : db.activeTx = some txId) : db.after .rollback =
      { db with wal := db.wal.rollbackTx txId, activeTx := none }.rebuildFromWal := by
  simp [Database.after, execStmt, rollbackTx, h, EStateM.bind, bind, get, getThe, MonadStateOf.get,
    EStateM.get, modify, modifyGet, MonadStateOf.modifyGet, EStateM.modifyGet, pure, EStateM.pure]

/-- What the parser promises of a statement: the name of a new table is an identifier, and its columns
can be `NULL`. -/
def Stmt.FromParser : Stmt → Prop
  | .createTable ct => NoDot ct.name ∧ ∀ c ∈ ct.columns, c.nullable = true
  | _ => True

instance (stmt : Stmt) : Decidable stmt.FromParser := by
  unfold Stmt.FromParser NoDot
  split <;> infer_instance

/-- The databases that a run of statements reaches. -/
abbrev Reached (db : Database) : Prop :=
  ReachableIf Database.step (fun _ stmt => stmt.FromParser) Database.new db

end SystemDesignLabs.Sql

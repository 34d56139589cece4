import SystemDesignLabs.Sql.Rebuild

/-!
# The invariant of the database

In every reached database the tables are well formed, every index is faithful to its table, and the log
agrees with the tables: outside a transaction the replay does; inside one, the replay that also takes the
active transaction does, while the replay itself agrees with some tables, those from before the
transaction. `inv_after` carries the invariant over a statement, case by case along `Outcome`.
-/

namespace SystemDesignLabs.Sql

open List Option Core SortedMap Database

/-- Every index stands under its key, belongs to a table and is faithful to its rows. -/
def IndexesOk (tables : Tables) (indexes : IndexManager) : Prop :=
  ∀ ⦃k : String⦄ ⦃idx : ColumnIndex⦄, indexes.indexes.get k = some idx →
    k = indexKey idx.table idx.column ∧
      ∃ table, tables.get idx.table = some table ∧ table.hasColumn idx.column = true ∧
        idx.Tracks table.rows

theorem indexesOk_new (tables : Tables) : IndexesOk tables IndexManager.new :=
  fun _ _ h => absurd h (by simp [IndexManager.new])

/-! ### The log -/

/-- The replay as it would be if `txId` were committed. -/
def Wal.replayAs (w : Wal) (txId : Nat) : ReplayResult :=
  replayWith (fun id => (committedTxIds w.entries).contains id || id == txId) w.entries

/-- What the log says of the tables. -/
def LogOk (wal : Wal) (activeTx : Option Nat) (tables : Tables) : Prop :=
  (∀ e ∈ wal.entries, e.txId < wal.nextTxId) ∧
    match activeTx with
    | none => Agrees wal.replay tables
    | some txId => txId < wal.nextTxId ∧ txId ∉ committedTxIds wal.entries ∧
        Agrees (wal.replayAs txId) tables ∧ ∃ base, TablesOk base ∧ Agrees wal.replay base

theorem not_committed_of_lt {entries : List LogEntry} {n : Nat} (h : ∀ e ∈ entries, e.txId < n) :
    n ∉ committedTxIds entries := by
  intro hmem
  obtain ⟨e, he, hid⟩ := txId_of_committed hmem
  exact absurd (h e he) (by omega)

theorem replay_append {w w' : Wal} {l : List LogEntry} (h : w'.entries = w.entries ++ l)
    (hcommit : committedTxIds l = []) (hnot : ∀ e ∈ l, e.txId ∉ committedTxIds w.entries) : w'.replay = w.replay := by
  unfold Wal.replay
  rw [h, committedTxIds_append, hcommit, append_nil, replayWith_append_of_false]
  intro e he
  simpa using hnot e he

variable {txId : Nat}

theorem replayAs_append {w w' : Wal} {l : List LogEntry} (h : w'.entries = w.entries ++ l)
    (hcommit : committedTxIds l = []) (htx : ∀ e ∈ l, e.txId = txId) :
    w'.replayAs txId = l.foldl ReplayResult.apply (w.replayAs txId) := by
  unfold Wal.replayAs
  rw [h, committedTxIds_append, hcommit, append_nil, replayWith_append_of_true]
  intro e he
  rw [htx e he, beq_self_eq_true, Bool.or_true]

theorem replayAs_of_lt {w : Wal} (h : ∀ e ∈ w.entries, e.txId < txId) : w.replayAs txId = w.replay := by
  apply replayWith_congr
  intro e he
  have hne : e.txId ≠ txId := Nat.ne_of_lt (h e he)
  simp [hne]

/-- A commit turns what the replay would be into what it is. -/
theorem replay_commit {w w' : Wal} (h : w'.entries = w.entries ++ [.commitTx txId]) : w'.replay = w.replayAs txId := by
  rw [Wal.replay, Wal.replayAs]
  have hcontains : (fun id => (committedTxIds w'.entries).contains id) =
      fun id => (committedTxIds w.entries).contains id || id == txId := by
    funext id
    rw [h, committedTxIds_append, Bool.eq_iff_iff]
    simp [committedTxIds]
  rw [hcontains, h, replayWith_append_of_true]
  · rfl
  · intro e he
    rw [mem_singleton.1 he]
    simp [LogEntry.txId]

/-! ### Statements and the log -/

/-- Entries of the transaction under which they are logged, without a commit entry. -/
structure OfTx (entries : Nat → List LogEntry) : Prop where
  txId : ∀ n, ∀ e ∈ entries n, e.txId = n
  noCommit : ∀ n, committedTxIds (entries n) = []

theorem ofTx_createTable (name : String) (schema : LoggedSchema) :
    OfTx fun txId => [.createTable txId name schema] where
  txId n e he := by
    rw [mem_singleton.1 he]
    rfl
  noCommit _ := rfl

theorem ofTx_insertRows (name : String) (rows : List LoggedRow) : OfTx fun txId => rows.map (.insertRow txId name) where
  txId n e he := by
    obtain ⟨raw, -, rfl⟩ := mem_map.1 he
    rfl
  noCommit n := by
    rw [committedTxIds]
    rw [filterMap_map]
    exact filterMap_eq_nil_iff.2 fun _ _ => rfl

variable {db : Database}

theorem logOk_logged {entries : Nat → List LogEntry} {tables' : Tables}
    (h : LogOk db.wal db.activeTx db.tables) (hentries : OfTx entries)
    (hreplay : ∀ (r : ReplayResult) (n : Nat), Agrees r db.tables → Agrees ((entries n).foldl ReplayResult.apply r) tables') :
    LogOk (db.logged entries).wal db.activeTx tables' := by
  obtain ⟨hlt, hlog⟩ := h
  cases hactive : db.activeTx with
  | some txId =>
    have hwal : (db.logged entries).wal =
        ⟨db.wal.entries ++ entries txId, db.wal.nextTxId⟩ := by
      simp only [logged, hactive]
    rw [hwal]
    rw [hactive] at hlog
    obtain ⟨htx, hnot, hagrees, base, hbase, hreplayBase⟩ := hlog
    refine ⟨?_, htx, ?_, ?_, base, hbase, ?_⟩
    · intro e he
      rcases mem_append.1 he with he | he
      · exact hlt e he
      · rw [hentries.txId txId e he]
        exact htx
    · show txId ∉ committedTxIds (db.wal.entries ++ entries txId)
      rwa [committedTxIds_append, hentries.noCommit, append_nil]
    · rw [replayAs_append (w := db.wal) rfl (hentries.noCommit txId) (hentries.txId txId)]
      exact hreplay _ txId hagrees
    · rw [replay_append (w := db.wal) rfl (hentries.noCommit txId)]
      · exact hreplayBase
      · intro e he
        rwa [hentries.txId txId e he]
  | none =>
    have hwal : (db.logged entries).wal =
        ⟨db.wal.entries ++ (.beginTx db.wal.nextTxId :: entries db.wal.nextTxId) ++
          [.commitTx db.wal.nextTxId], db.wal.nextTxId + 1⟩ := by
      simp only [logged, hactive, append_assoc, cons_append]
    rw [hwal]
    rw [hactive] at hlog
    -- the entries before the commit entry
    have hnoCommit : committedTxIds
        (.beginTx db.wal.nextTxId :: entries db.wal.nextTxId) = [] := hentries.noCommit _
    have hbefore : ∀ e ∈ LogEntry.beginTx db.wal.nextTxId :: entries db.wal.nextTxId,
        e.txId = db.wal.nextTxId := by
      intro e he
      rcases mem_cons.1 he with rfl | he
      · rfl
      · exact hentries.txId _ e he
    refine ⟨?_, ?_⟩
    · intro e he
      show e.txId < db.wal.nextTxId + 1
      rcases mem_append.1 he with he | he
      · rcases mem_append.1 he with he | he
        · exact Nat.lt_succ_of_lt (hlt e he)
        · rw [hbefore e he]
          exact Nat.lt_succ_self _
      · rw [mem_singleton.1 he]
        exact Nat.lt_succ_self _
    · show Agrees (Wal.replay _) tables'
      rw [replay_commit (w := ⟨db.wal.entries ++ .beginTx db.wal.nextTxId :: entries db.wal.nextTxId, 0⟩) rfl,
        replayAs_append (w := db.wal) rfl hnoCommit hbefore, replayAs_of_lt hlt]
      exact hreplay _ db.wal.nextTxId hlog

variable {tables : Tables}

theorem logOk_begin {wal : Wal} (hok : TablesOk tables) (h : LogOk wal none tables) :
    LogOk wal.beginTx (some wal.nextTxId) tables := by
  obtain ⟨hlt, hagrees⟩ := h
  have hnot := not_committed_of_lt hlt
  refine ⟨?_, Nat.lt_succ_self _, ?_, ?_, tables, hok, ?_⟩
  · intro e he
    show e.txId < wal.nextTxId + 1
    rcases mem_append.1 he with he | he
    · exact Nat.lt_succ_of_lt (hlt e he)
    · rw [mem_singleton.1 he]
      exact Nat.lt_succ_self _
  · show wal.nextTxId ∉ committedTxIds (wal.entries ++ [.beginTx wal.nextTxId])
    rw [committedTxIds_append]
    simpa [committedTxIds] using hnot
  · rw [replayAs_append (w := wal) (l := [.beginTx wal.nextTxId]) rfl rfl, replayAs_of_lt hlt]
    · exact hagrees
    · intro e he
      rw [mem_singleton.1 he]
      rfl
  · rw [replay_append (w := wal) (l := [.beginTx wal.nextTxId]) rfl rfl]
    · exact hagrees
    · intro e he
      rw [mem_singleton.1 he]
      exact hnot

theorem logOk_commit {wal : Wal} (h : LogOk wal (some txId) tables) : LogOk (wal.commitTx txId) none tables := by
  obtain ⟨hlt, htx, -, hagrees, -⟩ := h
  refine ⟨?_, ?_⟩
  · intro e he
    rcases mem_append.1 he with he | he
    · exact hlt e he
    · rw [mem_singleton.1 he]
      exact htx
  · show Agrees (Wal.replay _) tables
    rwa [replay_commit (w := wal) rfl]

theorem logOk_rollback {wal : Wal} (h : LogOk wal (some txId) tables) : ∃ base, TablesOk base ∧ Agrees wal.replay base ∧
      (wal.rollbackTx txId).replay = wal.replay ∧ LogOk (wal.rollbackTx txId) none (reloaded base) := by
  obtain ⟨hlt, htx, hnot, -, base, hbase, hagrees⟩ := h
  have hreplay : (wal.rollbackTx txId).replay = wal.replay := by
    apply replay_append (l := [.rollbackTx txId]) rfl rfl
    intro e he
    rw [mem_singleton.1 he]
    exact hnot
  refine ⟨base, hbase, hagrees, hreplay, ?_, ?_⟩
  · intro e he
    rcases mem_append.1 he with he | he
    · exact hlt e he
    · rw [mem_singleton.1 he]
      exact htx
  · show Agrees (Wal.replay _) (reloaded base)
    rw [hreplay]
    exact hagrees.reloaded

/-! ### Statements and the tables -/

variable {schema : List Column}

theorem resolveSchema_nullable {columns : List ColDef} (h : resolveSchema columns = .ok schema)
    (hnull : ∀ c ∈ columns, c.nullable = true) : ∀ c ∈ schema, c.nullable = true := by
  intro c hc
  obtain ⟨colDef, hmem, hresolve⟩ := exists_of_mem_mapM h hc
  rw [resolveColumn] at hresolve
  split at hresolve
  · cases hresolve
    exact hnull colDef hmem
  · exact absurd hresolve (by simp)

theorem hasColumns_nullRow (schema : List Column) : HasColumns schema (nullRow schema) := by
  induction schema using reverseRecOn with
  | nil => simp [HasColumns, nullRow]
  | append_singleton schema col ih =>
    intro c
    rw [nullRow] at ih ⊢
    rw [foldl_append, foldl_cons, foldl_nil, get_insert]
    by_cases h : c = col.name
    · simp [h]
    · rw [if_neg h, ih c]
      simp [h]

theorem hasColumns_insert {row : Row} (h : HasColumns schema row) {c : String}
    (hc : c ∈ schema.map Column.name) (v : Value) : HasColumns schema (row.insert c v) := by
  intro c'
  rw [get_insert]
  by_cases heq : c' = c
  · subst heq
    simpa using hc
  · rw [if_neg heq, h c']

theorem hasColumns_storeValue {row row' : Row} {p : String × Expr} (h : HasColumns schema row)
    (hstore : storeValue schema row p = .ok row') : HasColumns schema row' := by
  obtain ⟨val, -, hstore⟩ := bind_eq_ok.1 hstore
  cases hcol : schema.find? (fun c => c.name = p.1) with
  | none =>
    simp only [hcol] at hstore
    cases hstore
  | some col =>
    simp only [hcol] at hstore
    obtain ⟨coerced, -, hstore⟩ := bind_eq_ok.1 hstore
    cases hstore
    have hfound := find?_some hcol
    have hname : col.name = p.1 := of_decide_eq_true hfound
    exact hasColumns_insert h
      (mem_map.2 ⟨col, mem_of_find?_eq_some hcol, hname⟩) coerced

variable {table : Table} {rows : List Row}

/-- The rows that an `INSERT` adds have just the columns of the schema. -/
theorem hasColumns_insertedRows {ins : InsertStmt} (h : insertedRows table ins = .ok rows) :
    ∀ row ∈ rows, HasColumns table.schema row := by
  intro row hrow
  obtain ⟨colNames, -, h⟩ := bind_eq_ok.1 h
  obtain ⟨exprs, -, hbuild⟩ := exists_of_mem_mapM h hrow
  rw [buildRow] at hbuild
  split at hbuild
  · cases hbuild
  · exact foldlM_invariant (fun row p row' hrow _ => hasColumns_storeValue hrow)
      (hasColumns_nullRow _) hbuild

variable {name : String}

theorem TableOk.push (h : TableOk name table) {row : Row} (hrow : HasColumns table.schema row) :
    TableOk name { table with rows := table.rows ++ [row] } := by
  refine ⟨h.name_eq, h.noDot, h.nullable, ?_⟩
  intro r hr
  rcases mem_append.1 hr with hr | hr
  · exact h.columns r hr
  · rw [mem_singleton.1 hr]
    exact hrow

theorem TablesOk.insert (h : TablesOk tables) (htable : TableOk name table) : TablesOk (tables.insert name table) := by
  intro n t ht
  rw [get_insert] at ht
  by_cases hn : n = name
  · subst hn
    rw [if_pos rfl] at ht
    cases ht
    exact htable
  · rw [if_neg hn] at ht
    exact h ht

/-! ### Statements and the indexes -/

variable {indexes : IndexManager}

theorem IndexesOk.create (h : IndexesOk tables indexes) (hname : tables.get name = none) (table : Table) :
    IndexesOk (tables.insert name table) indexes := by
  intro k idx hidx
  obtain ⟨hk, t, ht, hcol, htracks⟩ := h hidx
  refine ⟨hk, t, ?_, hcol, htracks⟩
  have hne : idx.table ≠ name := by
    rintro rfl
    rw [hname] at ht
    cases ht
  rw [get_insert, if_neg hne, ht]

theorem IndexesOk.build (h : IndexesOk tables indexes) {column : String}
    (htable : tables.get name = some table) (hcol : table.hasColumn column = true) :
    IndexesOk tables (indexes.buildIndex name column table.rows) := by
  intro k idx hidx
  rw [IndexManager.buildIndex] at hidx
  rw [get_insert] at hidx
  split at hidx
  case isTrue hk =>
    cases hidx
    have hcolumn := ColumnIndex.insertRows_column (ColumnIndex.new name column) table.rows.zipIdx
    rw [hcolumn.1, hcolumn.2]
    exact ⟨hk, table, htable, hcol, IndexManager.tracks_buildIndex name column table.rows⟩
  case isFalse => exact h hidx

/-- An inserted row goes into the indexes of its table and into no other. -/
theorem IndexesOk.push (hok : TablesOk tables) (h : IndexesOk tables indexes)
    (htable : tables.get name = some table) (row : Row) :
    IndexesOk (tables.insert name { table with rows := table.rows ++ [row] })
      (indexes.indexRow name row table.rows.length) := by
  intro k idx hidx
  rw [IndexManager.get_indexRow] at hidx
  split at hidx
  case isTrue hstart =>
    obtain ⟨idx, hold, rfl⟩ := map_eq_some_iff.1 hidx
    obtain ⟨hk, t, ht, hcol, htracks⟩ := h hold
    rw [hk] at hstart
    have hname := (startsWith_indexKey (hok htable).noDot (hok ht).noDot).1 hstart
    rw [hname, htable, some.injEq] at ht
    subst ht
    refine ⟨hk, { table with rows := table.rows ++ [row] }, ?_, hcol, htracks.insert row⟩
    show get _ idx.table = _
    rw [get_insert, if_pos hname]
  case isFalse hstart =>
    obtain ⟨hk, t, ht, hcol, htracks⟩ := h hidx
    rw [hk] at hstart
    have hname : idx.table ≠ name := fun heq =>
      hstart ((startsWith_indexKey (hok htable).noDot (hok ht).noDot).2 heq)
    exact ⟨hk, t, by rw [get_insert, if_neg hname, ht], hcol, htracks⟩

/-! ### Insertions -/

theorem applyRows_wal (db : Database) (name : String) (rows : List Row) :
    (db.applyRows name rows).wal = db.wal ∧ (db.applyRows name rows).activeTx = db.activeTx := by
  induction rows generalizing db with
  | nil => exact ⟨rfl, rfl⟩
  | cons row rows ih =>
    have hpush : (db.pushRow name row).wal = db.wal ∧
        (db.pushRow name row).activeTx = db.activeTx := by
      rw [pushRow]
      split <;> exact ⟨rfl, rfl⟩
    exact ⟨(ih _).1.trans hpush.1, (ih _).2.trans hpush.2⟩

theorem applyRows_spec (hok : TablesOk db.tables) (hidx : IndexesOk db.tables db.indexes)
    (htable : db.tables.get name = some table) (hrows : ∀ row ∈ rows, HasColumns table.schema row) :
    (∀ n, (db.applyRows name rows).tables.get n =
        if n = name then some { table with rows := table.rows ++ rows } else db.tables.get n) ∧
      TablesOk (db.applyRows name rows).tables ∧
      IndexesOk (db.applyRows name rows).tables (db.applyRows name rows).indexes := by
  induction rows generalizing db table with
  | nil =>
    refine ⟨fun n => ?_, hok, hidx⟩
    rw [append_nil]
    show db.tables.get n = _
    split
    case isTrue hn => rw [hn, htable]
    case isFalse => rfl
  | cons row rows ih =>
    have hpush : db.pushRow name row =
        { db with
          indexes := db.indexes.indexRow name row table.rows.length
          tables := db.tables.insert name { table with rows := table.rows ++ [row] } } := by
      rw [pushRow]
      rw [htable]
    have htable' : (db.pushRow name row).tables.get name =
        some { table with rows := table.rows ++ [row] } := by
      rw [hpush]
      exact (get_insert _ _ _ _).trans (if_pos rfl)
    have hrow := hrows row mem_cons_self
    have hok' : TablesOk (db.pushRow name row).tables := by
      rw [hpush]
      exact hok.insert ((hok htable).push hrow)
    have hidx' : IndexesOk (db.pushRow name row).tables (db.pushRow name row).indexes := by
      rw [hpush]
      exact hidx.push hok htable row
    have hnext := ih hok' hidx' htable' fun r hr => hrows r (mem_cons_of_mem _ hr)
    refine ⟨fun n => ?_, hnext.2⟩
    show ((db.pushRow name row).applyRows name rows).tables.get n = _
    rw [hnext.1, append_assoc]
    split
    case isTrue => rfl
    case isFalse hn =>
      rw [hpush]
      exact (get_insert _ _ _ _).trans (if_neg hn)

theorem Agrees.insertRows {replay : ReplayResult} {tables' : Tables} (h : Agrees replay tables)
    (htable : tables.get name = some table) (txId : Nat)
    (htables' : ∀ n, tables'.get n = if n = name then some { table with rows := table.rows ++ rows } else tables.get n) :
    Agrees (((rows.map serialize).map (LogEntry.insertRow txId name)).foldl ReplayResult.apply replay) tables' := by
  obtain ⟨hschemas, hrows⟩ := foldl_apply_insertRow replay txId name (rows.map serialize)
  refine ⟨?_, ?_, ?_⟩
  · intro n
    rw [hschemas, h.schemas, htables']
    split
    case isTrue hn => rw [hn, htable]; rfl
    case isFalse => rfl
  · intro n t ht
    rw [htables'] at ht
    rw [hrows]
    by_cases hn : n = name
    · subst hn
      rw [if_pos rfl] at ht
      cases ht
      have hnew : Forall₂ (fun raw row => rebuildRow table.schema raw = rebuildRow table.schema (serialize row))
          (rows.map serialize) rows := by
        rw [forall₂_map_left_iff, forall₂_same]
        exact fun row _ => rfl
      have hall := rel_append (h.rows htable) hnew
      split
      case isTrue => exact hall
      case isFalse hnil =>
        have hrowsNil : rows = [] := by simpa using hnil
        rw [hrowsNil, append_nil]
        exact h.rows htable
    · rw [if_neg hn] at ht
      rw [if_neg fun hand => hn hand.1]
      exact h.rows ht
  · intro n ht
    rw [htables'] at ht
    by_cases hn : n = name
    · rw [if_pos hn] at ht
      cases ht
    · rw [if_neg hn] at ht
      rw [hrows, if_neg fun hand => hn hand.1]
      exact h.noRows ht

theorem Agrees.create {replay : ReplayResult} (h : Agrees replay tables) (hname : tables.get name = none)
    (schema : List Column) (txId : Nat) : Agrees (replay.apply (.createTable txId name (loggedSchema schema)))
      (tables.insert name (Table.new name schema)) := by
  refine ⟨?_, ?_, ?_⟩
  · intro n
    show (replay.schemas.insert name (loggedSchema schema)).get n = _
    rw [get_insert, get_insert, h.schemas]
    split <;> rfl
  · intro n t ht
    show Forall₂ _ ((replay.rows.get n).getD []) t.rows
    rw [get_insert] at ht
    by_cases hn : n = name
    · subst hn
      rw [if_pos rfl] at ht
      cases ht
      rw [h.noRows hname]
      exact Forall₂.nil
    · rw [if_neg hn] at ht
      exact h.rows ht
  · intro n ht
    rw [get_insert] at ht
    by_cases hn : n = name
    · rw [if_pos hn] at ht
      cases ht
    · rw [if_neg hn] at ht
      exact h.noRows ht

/-! ### The invariant -/

structure Database.Inv (db : Database) : Prop where
  tables : TablesOk db.tables
  indexes : IndexesOk db.tables db.indexes
  log : LogOk db.wal db.activeTx db.tables

theorem inv_new : Database.new.Inv where
  tables := fun _ _ h => absurd h (by simp [new])
  indexes := indexesOk_new _
  log := ⟨fun _ h => absurd h (by simp [new, Wal.new]),
    ⟨fun _ => rfl, fun _ _ h => absurd h (by simp [new]), fun _ _ => rfl⟩⟩

theorem logged_tables (db : Database) (entries : Nat → List LogEntry) :
    (db.logged entries).tables = db.tables ∧ (db.logged entries).indexes = db.indexes ∧
      (db.logged entries).activeTx = db.activeTx := by
  rw [logged]
  split
  case h_1 => exact ⟨rfl, rfl, rfl⟩
  case h_2 => exact ⟨rfl, rfl, rfl⟩

theorem Database.Inv.created (h : db.Inv) (hname : db.tables.get name = none) (hdot : NoDot name)
    (hnull : ∀ c ∈ schema, c.nullable = true) : (db.created name schema).Inv := by
  obtain ⟨-, hindexes, hactive⟩ :=
    logged_tables db fun txId => [.createTable txId name (loggedSchema schema)]
  refine ⟨?_, ?_, ?_⟩
  · exact h.tables.insert ⟨rfl, hdot, hnull, fun row hrow => absurd hrow (by simp [Table.new])⟩
  · show IndexesOk _ (db.logged _).indexes
    rw [hindexes]
    exact h.indexes.create hname _
  · show LogOk (db.logged _).wal (db.logged _).activeTx _
    rw [hactive]
    exact logOk_logged h.log (ofTx_createTable _ _) fun r n hr => hr.create hname schema n

theorem Database.Inv.inserted (h : db.Inv) (htable : db.tables.get name = some table)
    (hrows : ∀ row ∈ rows, HasColumns table.schema row) : (db.inserted name rows).Inv := by
  rw [Database.inserted]
  obtain ⟨htables, hindexes, hactive⟩ :=
    logged_tables db fun txId => (rows.map serialize).map (.insertRow txId name)
  have hlog : LogOk (db.logged fun txId => (rows.map serialize).map (.insertRow txId name)).wal
      db.activeTx ((db.logged fun txId =>
        (rows.map serialize).map (.insertRow txId name)).applyRows name rows).tables := by
    apply logOk_logged h.log (ofTx_insertRows _ _)
    intro r n hr
    apply hr.insertRows htable n
    have hspec := (applyRows_spec (htables ▸ h.tables) (htables ▸ hindexes ▸ h.indexes)
      ((congrArg (get · name) htables).trans htable) hrows).1
    rwa [htables] at hspec
  generalize db.logged (fun txId => (rows.map serialize).map (.insertRow txId name)) = db'
    at htables hindexes hactive hlog
  obtain ⟨hwal', hactive'⟩ := applyRows_wal db' name rows
  have hspec := applyRows_spec (htables ▸ h.tables) (htables ▸ hindexes ▸ h.indexes)
    ((congrArg (get · name) htables).trans htable) hrows
  refine ⟨hspec.2.1, hspec.2.2, ?_⟩
  rw [hwal', hactive', hactive]
  exact hlog

/-- Every statement keeps the invariant. -/
theorem inv_after {stmt : Stmt} (h : db.Inv) (hparser : stmt.FromParser) : (db.after stmt).Inv := by
  rcases after_cases db stmt with hsame | houtcome
  · rwa [hsame]
  · generalize db.after stmt = db' at houtcome
    cases houtcome with
    | createTable hname hschema =>
      exact h.created hname hparser.1 (resolveSchema_nullable hschema hparser.2)
    | createIndex htable hcol => exact ⟨h.tables, h.indexes.build htable hcol, h.log⟩
    | insert htable hrows => exact h.inserted htable (hasColumns_insertedRows hrows)
    | select => exact h
    | begin hactive =>
      have hlog := h.log
      rw [hactive] at hlog
      exact ⟨h.tables, h.indexes, logOk_begin h.tables hlog⟩
    | commit hactive =>
      have hlog := h.log
      rw [hactive] at hlog
      exact ⟨h.tables, h.indexes, logOk_commit hlog⟩
    | @rollback txId hactive =>
      have hlog := h.log
      rw [hactive] at hlog
      obtain ⟨base, hbase, hagrees, hreplay, hlog'⟩ := logOk_rollback hlog
      have htables : rebuildTables (db.wal.rollbackTx txId).replay = reloaded base := by
        rw [hreplay]
        exact rebuildTables_eq hbase hagrees
      refine ⟨?_, indexesOk_new _, ?_⟩
      · show TablesOk (rebuildTables (db.wal.rollbackTx txId).replay)
        rw [htables]
        exact tablesOk_reloaded hbase
      · show LogOk _ none (rebuildTables (db.wal.rollbackTx txId).replay)
        rw [htables]
        exact hlog'

/-- The invariant holds in every reached database. -/
theorem inv_of_reached (h : Reached db) : db.Inv := by
  apply ReachableIf.invariant inv_new _ h
  intro s stmt s' _ hinv hparser hstep
  rw [← some.inj hstep]
  exact inv_after hinv hparser

end SystemDesignLabs.Sql

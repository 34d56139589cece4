import SystemDesignLabs.Sql.IndexTransparency

/-!
# Rollback

Between `BEGIN` and `ROLLBACK` the replay of the log stays as it is: every entry belongs to the active
transaction, which is not committed. So the rollback rebuilds the tables from the replay of the state
before `BEGIN`, whatever was executed in between (`replay_between`). The tables come back exactly when
every value survives the text of the log: a `NULL` in a `TEXT` column comes back as the text `NULL`. The
indexes do not come back, so that a `SELECT` that depends on an index changes its result as well.
-/

namespace SystemDesignLabs.Sql

open Core Database

namespace Database

/-- Execute statements one after the other. -/
def run (db : Database) (stmts : List Stmt) : Database := stmts.foldl Database.after db

/-- `BEGIN`, the statements, `ROLLBACK`. -/
def rolledBack (db : Database) (stmts : List Stmt) : Database :=
  ((db.after .begin).run stmts).after .rollback

end Database

/-- The statements that do not end the transaction. -/
def Between (stmts : List Stmt) : Prop := ∀ stmt ∈ stmts, stmt ≠ .commit ∧ stmt ≠ .rollback

instance (stmts : List Stmt) : Decidable (Between stmts) := by
  rw [Between]
  infer_instance

/-- The transaction is active and not committed, and the replay is `replay`. -/
structure Pending (txId : Nat) (replay : ReplayResult) (db : Database) : Prop where
  active : db.activeTx = some txId
  notCommitted : txId ∉ committedTxIds db.wal.entries
  replay_eq : db.wal.replay = replay

variable {db : Database} {replay : ReplayResult}

theorem Pending.logged {txId : Nat} (h : Pending txId replay db) {entries : Nat → List LogEntry}
    (hentries : OfTx entries) : Pending txId replay (db.logged entries) := by
  have hwal : (db.logged entries).wal = ⟨db.wal.entries ++ entries txId, db.wal.nextTxId⟩ := by
    simp only [Database.logged, h.active]
  refine ⟨(logged_tables db entries).2.2.trans h.active, ?_, ?_⟩
  · rw [hwal, committedTxIds_append, hentries.noCommit, List.append_nil]
    exact h.notCommitted
  · rw [hwal, ← h.replay_eq]
    apply replay_append rfl (hentries.noCommit txId)
    intro e he
    rw [hentries.txId txId e he]
    exact h.notCommitted

theorem Pending.after {txId : Nat} (h : Pending txId replay db) {stmt : Stmt} (hcommit : stmt ≠ .commit)
    (hrollback : stmt ≠ .rollback) : Pending txId replay (db.after stmt) := by
  rcases after_cases db stmt with hsame | houtcome
  · rwa [hsame]
  · generalize db.after stmt = db' at houtcome
    cases houtcome with
    | createTable hname hschema =>
      obtain ⟨hactive, hnot, hreplay⟩ := h.logged (ofTx_createTable _ _)
      exact ⟨hactive, hnot, hreplay⟩
    | createIndex htable hcol => exact ⟨h.active, h.notCommitted, h.replay_eq⟩
    | @insert ins table rows htable hrows =>
      obtain ⟨hactive, hnot, hreplay⟩ := h.logged (ofTx_insertRows ins.table (rows.map serialize))
      have hwal := applyRows_wal
        (db.logged fun txId => (rows.map serialize).map (.insertRow txId ins.table)) ins.table rows
      refine ⟨hwal.2.trans hactive, ?_, ?_⟩
      · rw [inserted]
        rwa [hwal.1]
      · rw [inserted]
        rwa [hwal.1]
    | select => exact h
    | begin hnone =>
      rw [h.active] at hnone
      cases hnone
    | commit => exact absurd rfl hcommit
    | rollback => exact absurd rfl hrollback

/-- Between `BEGIN` and the end of the transaction the replay stays as it is. -/
theorem Pending.run {txId : Nat} (h : Pending txId replay db) {stmts : List Stmt} (hbetween : Between stmts) :
    Pending txId replay (db.run stmts) := by
  induction stmts generalizing db with
  | nil => exact h
  | cons stmt stmts ih =>
    obtain ⟨hcommit, hrollback⟩ := hbetween stmt List.mem_cons_self
    exact ih (h.after hcommit hrollback) fun s hs => hbetween s (List.mem_cons_of_mem _ hs)

theorem pending_begin (hinv : db.Inv) (hnone : db.activeTx = none) :
    Pending db.wal.nextTxId db.wal.replay (db.after .begin) := by
  have hnot := not_committed_of_lt hinv.log.1
  rw [after_begin hnone]
  refine ⟨rfl, ?_, ?_⟩
  · show db.wal.nextTxId ∉ committedTxIds (db.wal.entries ++ [.beginTx db.wal.nextTxId])
    rw [committedTxIds_append]
    simpa [committedTxIds] using hnot
  · apply replay_append (l := [.beginTx db.wal.nextTxId]) rfl rfl
    intro e he
    rw [List.mem_singleton.1 he]
    exact hnot

/-- What a rollback leaves behind, whatever was executed since `BEGIN`: the tables as the log has them,
and no index. -/
theorem rolledBack_spec (h : Reached db) (hnone : db.activeTx = none) {stmts : List Stmt} (hbetween : Between stmts) :
    (db.rolledBack stmts).tables = reloaded db.tables ∧ (db.rolledBack stmts).indexes = IndexManager.new := by
  have hinv := inv_of_reached h
  obtain ⟨hactive, hnot, hreplay⟩ := (pending_begin hinv hnone).run hbetween
  have hlog := hinv.log.2
  rw [hnone] at hlog
  rw [rolledBack]
  rw [after_rollback hactive]
  refine ⟨?_, rfl⟩
  show rebuildTables (Wal.rollbackTx _ _).replay = _
  rw [replay_append (l := [.rollbackTx db.wal.nextTxId]) rfl rfl, hreplay]
  · exact rebuildTables_eq hinv.tables hlog
  · intro e he
    rw [List.mem_singleton.1 he]
    exact hnot

/-- **A rollback restores the state exactly when every stored value survives the log and no `SELECT`
depends on an index.** -/
theorem rollback_restores_iff {db : Database} (h : Reached db) (hnone : db.activeTx = none)
    {stmts : List Stmt} (hbetween : Between stmts) :
    ((db.rolledBack stmts).tables = db.tables ∧
      ∀ sel : SelectStmt,
        execSelect (db.rolledBack stmts).tables (db.rolledBack stmts).indexes sel =
          execSelect db.tables db.indexes sel) ↔
      LogsBack db.tables ∧
        ∀ (name : String) (join : Option JoinClause) (whereClause : Option Expr),
          NotShadowed db.tables db.indexes name join whereClause := by
  obtain ⟨htables, hindexes⟩ := rolledBack_spec h hnone hbetween
  rw [htables, hindexes, reloaded_eq_iff (inv_of_reached h).tables]
  constructor
  · rintro ⟨hlogs, hselect⟩
    refine ⟨hlogs, fun name join whereClause => ?_⟩
    rw [(reloaded_eq_iff (inv_of_reached h).tables).2 hlogs] at hselect
    rw [← select_transparent_iff h]
    exact fun columns orderBy limit offset => (hselect _).symm
  · rintro ⟨hlogs, hshadow⟩
    refine ⟨hlogs, fun sel => ?_⟩
    rw [(reloaded_eq_iff (inv_of_reached h).tables).2 hlogs]
    exact ((select_transparent_iff h sel.from' sel.join sel.whereClause).2
      (hshadow _ _ _) sel.columns sel.orderBy sel.limit sel.offset).symm

/-! ### A value that does not come back -/

/-- **A `NULL` in a `TEXT` column comes back as a text.** -/
theorem nullText_changed : ∃ db, Reached db ∧ db.activeTx = none ∧
    (rowsOf db.tables "t").map (fun row => row.get "x") = [some .null] ∧
    (rowsOf (db.rolledBack []).tables "t").map (fun row => row.get "x") = [some (.text "NULL")] := by
  have hrun : (execIf step (fun _ stmt => decide stmt.FromParser) new
      [.createTable ⟨"t", [⟨"x", "TEXT", true⟩]⟩, .insert ⟨"t", [], [[.literal .null]]⟩]).map
      (fun db => decide (db.activeTx = none ∧
        (rowsOf db.tables "t").map (fun row => row.get "x") = [some .null] ∧
        (rowsOf (db.rolledBack []).tables "t").map (fun row => row.get "x") =
          [some (.text "NULL")])) = some true := by rfl
  obtain ⟨db, hdb, hfacts⟩ := Option.map_eq_some_iff.1 hrun
  exact ⟨db, ReachableIf.init.execIf (fun _ _ => of_decide_eq_true) hdb, of_decide_eq_true hfacts⟩

theorem notShadowed_of_noIndex {tables : Tables} {indexes : IndexManager}
    (h : indexes.indexes.entries = []) (name : String) (join : Option JoinClause)
    (whereClause : Option Expr) : NotShadowed tables indexes name join whereClause := by
  unfold NotShadowed
  split
  case h_1 =>
    intro _ hindex
    simp [IndexManager.hasIndex, SortedMap.get, h] at hindex
  case h_2 => trivial

/-- A run whose values survive: integers, a text, and a `NULL` in an `INT` column. The transaction creates
a table and an index, inserts, and fails twice. -/
theorem rollback_restores_run : ∃ db, Reached db ∧
    (db.rolledBack
      [.insert ⟨"t", [], [[.literal (.int 3), .literal (.text "c")]]⟩,
        .createTable ⟨"u", [⟨"x", "INT", true⟩]⟩, .createIndex ⟨"i", "t", "a"⟩, .begin,
        .insert ⟨"v", [], []⟩]).tables = db.tables ∧
    ∀ sel : SelectStmt, execSelect
      (db.rolledBack
        [.insert ⟨"t", [], [[.literal (.int 3), .literal (.text "c")]]⟩,
          .createTable ⟨"u", [⟨"x", "INT", true⟩]⟩, .createIndex ⟨"i", "t", "a"⟩, .begin,
          .insert ⟨"v", [], []⟩]).tables
      (db.rolledBack
        [.insert ⟨"t", [], [[.literal (.int 3), .literal (.text "c")]]⟩,
          .createTable ⟨"u", [⟨"x", "INT", true⟩]⟩, .createIndex ⟨"i", "t", "a"⟩, .begin,
          .insert ⟨"v", [], []⟩]).indexes sel = execSelect db.tables db.indexes sel := by
  have hrun : (execIf step (fun _ stmt => decide stmt.FromParser) new
      [.createTable ⟨"t", [⟨"a", "INT", true⟩, ⟨"b", "TEXT", true⟩]⟩,
        .insert ⟨"t", [], [[.literal (.int (-1)), .literal (.text "b")]]⟩,
        .insert ⟨"t", ["b"], [[.literal (.text "NULL")]]⟩]).map
      (fun db => decide (db.activeTx = none ∧ db.indexes.indexes.entries.isEmpty = true ∧
        LogsBack db.tables)) = some true := by rfl
  obtain ⟨db, hdb, hfacts⟩ := Option.map_eq_some_iff.1 hrun
  obtain ⟨hnone, hempty, hlogs⟩ := of_decide_eq_true hfacts
  have hreached : Reached db := ReachableIf.init.execIf (fun _ _ => of_decide_eq_true) hdb
  refine ⟨db, hreached, ?_⟩
  exact (rollback_restores_iff hreached hnone (by decide)).2
    ⟨hlogs, notShadowed_of_noIndex (List.isEmpty_iff.1 hempty)⟩

end SystemDesignLabs.Sql

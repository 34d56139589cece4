import SystemDesignLabs.Sql.Database

/-!
# Tables and what the log rebuilds

`TablesOk` is what holds of every table: it stands under its own name, its name has no dot, and its rows
have just the columns of its schema. `Agrees` relates a replay of the log to tables: the schemas are the
same, and each logged row is rebuilt to the same row as the text of the row in the table would be. Under
the two, the rebuilt tables are the tables with each row replaced by the one rebuilt from its text
(`rebuildTables_eq`), and they agree with the same replay.
-/

namespace SystemDesignLabs.Sql

open Core SortedMap

/-- A row has just the columns of a schema. -/
def HasColumns (schema : List Column) (row : Row) : Prop :=
  ∀ c, (row.get c).isSome = true ↔ c ∈ schema.map Column.name

structure TableOk (name : String) (table : Table) : Prop where
  name_eq : table.name = name
  noDot : NoDot name
  nullable : ∀ c ∈ table.schema, c.nullable = true
  columns : ∀ row ∈ table.rows, HasColumns table.schema row

def TablesOk (tables : Tables) : Prop :=
  ∀ ⦃name : String⦄ ⦃table : Table⦄, tables.get name = some table → TableOk name table

/-! ### Rebuilding a row -/

/-- The type of the last column of a name: the one whose value stays in a rebuilt row. -/
def lastType (schema : List Column) (name : String) : Option ColType :=
  (schema.reverse.find? fun c => c.name = name).map Column.colType

theorem lastType_isSome (schema : List Column) (name : String) :
    (lastType schema name).isSome = true ↔ name ∈ schema.map Column.name := by
  simp [lastType]

theorem get_rebuildRow (schema : List Column) (raw : LoggedRow) (name : String) : (rebuildRow schema raw).get name =
      (lastType schema name).map fun ty => parseValueFromStr ((raw.get name).getD "") ty := by
  induction schema using List.reverseRecOn with
  | nil => rfl
  | append_singleton schema col ih =>
    rw [rebuildRow, lastType] at ih ⊢
    rw [List.foldl_append, List.foldl_cons, List.foldl_nil, get_insert, ih,
      List.reverse_append, List.reverse_singleton, List.singleton_append, List.find?_cons]
    by_cases h : name = col.name
    · subst h
      simp
    · rw [if_neg h, decide_eq_false (Ne.symm h)]

theorem get_serialize (row : Row) (name : String) : (serialize row).get name = (row.get name).map Value.display :=
  get_mapEntries row _ name

theorem hasColumns_rebuildRow (schema : List Column) (raw : LoggedRow) : HasColumns schema (rebuildRow schema raw) := by
  intro c
  rw [get_rebuildRow, Option.isSome_map, lastType_isSome]

/-- Rebuilding from the text of a rebuilt row gives the row again. -/
theorem rebuildRow_serialize_rebuildRow (schema : List Column) (raw : LoggedRow) :
    rebuildRow schema (serialize (rebuildRow schema raw)) = rebuildRow schema raw := by
  apply ext_get
  intro c
  rw [get_rebuildRow, get_serialize, get_rebuildRow]
  cases lastType schema c with
  | none => rfl
  | some ty =>
    simp only [Option.map_some, Option.getD_some]
    rw [(parse_display_iff _ _).2 (survives_parse _ _)]

/-- Every value of the row survives at the last type of its column. -/
def RowSurvives (schema : List Column) (row : Row) : Prop :=
  ∀ ⦃c : String⦄ ⦃v : Value⦄ ⦃ty : ColType⦄, row.get c = some v → lastType schema c = some ty →
    v.Survives ty

/-- A row is rebuilt from its text exactly when its values survive. -/
theorem rebuildRow_serialize_iff {schema : List Column} {row : Row} (h : HasColumns schema row) :
    rebuildRow schema (serialize row) = row ↔ RowSurvives schema row := by
  constructor
  · intro heq c v ty hv hty
    have hget := congrArg (fun row => get row c) heq
    simp only [get_rebuildRow, get_serialize, hv, hty, Option.map_some, Option.getD_some, Option.some.injEq] at hget
    exact (parse_display_iff v ty).1 hget
  · intro hsurvives
    apply ext_get
    intro c
    rw [get_rebuildRow, get_serialize]
    cases hty : lastType schema c with
    | none =>
      cases hv : row.get c with
      | none => rfl
      | some v =>
        have hmem := (h c).1 (by rw [hv]; rfl)
        rw [← lastType_isSome, hty] at hmem
        exact absurd hmem (by simp)
    | some ty =>
      have hsome := (h c).2 ((lastType_isSome schema c).1 (by rw [hty]; rfl))
      obtain ⟨v, hv⟩ := Option.isSome_iff_exists.1 hsome
      rw [hv]
      simp only [Option.map_some, Option.getD_some]
      rw [(parse_display_iff v ty).2 (hsurvives hv hty)]

/-! ### Rebuilding the tables -/

theorem get_rebuildSchemas (schemas : SortedMap String LoggedSchema) (name : String) :
    (rebuildSchemas schemas).get name = (schemas.get name).map fun s => Table.new name (s.filterMap loggedColumn) := by
  have hsorted : SortedList.Sorted
      (schemas.entries.map fun p => (p.1, Table.new p.1 (p.2.filterMap loggedColumn))) :=
    SortedList.sorted_mapEntries (fun k s => Table.new k (s.filterMap loggedColumn)) schemas.sorted
  rw [rebuildSchemas]
  rw [get_insertAll _ hsorted]
  have hfind := SortedList.find_mapEntries (fun k s => Table.new k (s.filterMap loggedColumn))
    schemas.entries name
  rw [hfind]
  unfold SortedMap.get
  cases SortedList.find schemas.entries name <;> rfl

theorem get_rebuildRows (rows : SortedMap String (List LoggedRow)) (tables : Tables) (name : String) :
    (rebuildRows rows tables).get name = (tables.get name).map fun table => { table with
        rows := table.rows ++ ((rows.get name).getD []).map (rebuildRow table.schema) } := by
  have hfold := get_foldl_adjust Prod.fst
    (fun (p : String × List LoggedRow) (table : Table) =>
      { table with rows := table.rows ++ p.2.map (rebuildRow table.schema) })
    rows.nodup_keys tables name
  rw [rebuildRows]
  rw [hfold]
  unfold SortedMap.get
  rw [SortedList.find_eq_find? rows.entries]
  cases rows.entries.find? (fun p => decide (p.1 = name)) with
  | none => simp
  | some p => rfl

theorem filterMap_loggedSchema {schema : List Column} (h : ∀ c ∈ schema, c.nullable = true) :
    (loggedSchema schema).filterMap loggedColumn = schema := by
  rw [loggedSchema]
  rw [List.filterMap_map]
  have hcolumn : ∀ c ∈ schema,
      (loggedColumn ∘ fun c : Column => (c.name, c.colType.debug)) c = some c := by
    intro c hc
    obtain ⟨name, colType, nullable⟩ := c
    have hnull : nullable = true := h _ hc
    simp [loggedColumn, hnull]
  rw [List.filterMap_congr hcolumn, List.filterMap_some]

/-- A replay of the log says of the tables: the schemas are these, and each logged row is rebuilt to
what the text of the row in the table is rebuilt to. -/
structure Agrees (replay : ReplayResult) (tables : Tables) : Prop where
  schemas : ∀ name,
    replay.schemas.get name = (tables.get name).map fun table => loggedSchema table.schema
  rows : ∀ ⦃name : String⦄ ⦃table : Table⦄, tables.get name = some table →
    List.Forall₂ (fun raw row =>
      rebuildRow table.schema raw = rebuildRow table.schema (serialize row))
      ((replay.rows.get name).getD []) table.rows
  noRows : ∀ ⦃name : String⦄, tables.get name = none → replay.rows.get name = none

/-- Each row replaced by the one that is rebuilt from its text. -/
def reloaded (tables : Tables) : Tables :=
  tables.mapEntries fun _ table =>
    { table with rows := table.rows.map fun row => rebuildRow table.schema (serialize row) }

theorem get_reloaded (tables : Tables) (name : String) : (reloaded tables).get name = (tables.get name).map fun table =>
      { table with rows := table.rows.map fun row => rebuildRow table.schema (serialize row) } :=
  get_mapEntries tables _ name

theorem map_eq_of_forall₂ {A B C : Type} {f : A → C} {g : B → C} {l : List A} {l' : List B}
    (h : List.Forall₂ (fun a b => f a = g b) l l') : l.map f = l'.map g := by
  induction h with
  | nil => rfl
  | cons hab _ ih => rw [List.map_cons, List.map_cons, hab, ih]

variable {tables : Tables}

/-- What is rebuilt from a replay that agrees with the tables. -/
theorem rebuildTables_eq {replay : ReplayResult} (hok : TablesOk tables) (h : Agrees replay tables) :
    rebuildTables replay = reloaded tables := by
  apply ext_get
  intro name
  rw [rebuildTables]
  rw [get_rebuildRows, get_rebuildSchemas, h.schemas, get_reloaded]
  cases htable : tables.get name with
  | none => rfl
  | some table =>
    have hname := (hok htable).name_eq
    have hrows := map_eq_of_forall₂ (h.rows htable)
    simp only [Option.map_some, Table.new, filterMap_loggedSchema (hok htable).nullable, List.nil_append, hrows, hname]

theorem tablesOk_reloaded (hok : TablesOk tables) : TablesOk (reloaded tables) := by
  intro name table htable
  rw [get_reloaded] at htable
  obtain ⟨table, hget, rfl⟩ := Option.map_eq_some_iff.1 htable
  refine ⟨(hok hget).name_eq, (hok hget).noDot, (hok hget).nullable, ?_⟩
  intro row hrow
  obtain ⟨row, _, rfl⟩ := List.mem_map.1 hrow
  exact hasColumns_rebuildRow _ _

theorem Agrees.reloaded {replay : ReplayResult} (h : Agrees replay tables) : Agrees replay (reloaded tables) where
  schemas name := by
    rw [get_reloaded, h.schemas, Option.map_map]
    rfl
  rows := by
    intro name table htable
    rw [get_reloaded] at htable
    obtain ⟨table, hget, rfl⟩ := Option.map_eq_some_iff.1 htable
    rw [List.forall₂_map_right_iff]
    apply (h.rows hget).imp
    intro raw row heq
    rw [heq, rebuildRow_serialize_rebuildRow]
  noRows := by
    intro name hname
    rw [get_reloaded, Option.map_eq_none_iff] at hname
    exact h.noRows hname

/-- Every value of every table survives at the last type of its column. -/
def LogsBack (tables : Tables) : Prop :=
  ∀ ⦃name : String⦄ ⦃table : Table⦄, tables.get name = some table →
    ∀ row ∈ table.rows, RowSurvives table.schema row

theorem logsBack_iff : LogsBack tables ↔ ∀ p ∈ tables.entries, ∀ row ∈ p.2.rows, ∀ q ∈ row.entries,
      ∀ ty ∈ lastType p.2.schema q.1, q.2.Survives ty := by
  constructor
  · intro h p hp row hrow q hq ty hty
    exact h (mem_entries_iff.1 hp) row hrow (mem_entries_iff.1 hq) hty
  · intro h name table htable row hrow c v ty hv hty
    exact h (name, table) (mem_entries_iff.2 htable) row hrow (c, v)
      (mem_entries_iff.2 hv) ty hty

instance (tables : Tables) : Decidable (LogsBack tables) := decidable_of_iff _ logsBack_iff.symm

/-- The rebuilt tables are the tables exactly when every value survives. -/
theorem reloaded_eq_iff (hok : TablesOk tables) : reloaded tables = tables ↔ LogsBack tables := by
  constructor
  · intro heq name table htable row hrow
    have hget := get_reloaded tables name
    rw [heq, htable, Option.map_some, Option.some.injEq] at hget
    have hrows : table.rows.map (fun row => rebuildRow table.schema (serialize row)) =
        table.rows.map id := by
      rw [List.map_id]
      exact (congrArg Table.rows hget).symm
    have hrow' := List.map_inj_left.1 hrows row hrow
    exact (rebuildRow_serialize_iff ((hok htable).columns row hrow)).1 hrow'
  · intro hlogs
    apply ext_get
    intro name
    rw [get_reloaded]
    cases htable : tables.get name with
    | none => rfl
    | some table =>
      have hrows : table.rows.map (fun row => rebuildRow table.schema (serialize row)) =
          table.rows := by
        conv_rhs => rw [← List.map_id table.rows]
        apply List.map_congr_left
        intro row hrow
        exact (rebuildRow_serialize_iff ((hok htable).columns row hrow)).2 (hlogs htable row hrow)
      rw [Option.map_some, hrows]

end SystemDesignLabs.Sql

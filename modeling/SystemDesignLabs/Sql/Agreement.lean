import SystemDesignLabs.Sql.DirectExecutor
import SystemDesignLabs.Sql.IndexTransparency

/-!
# The direct executor and the plan

A `SELECT` over one table, without order and limit, is a filter and a projection in both executors. They evaluate the
`WHERE` clause alike. The columns they check at different places: the direct executor looks them up in the schema of
the table, whatever rows there are, and the projection of the plan looks them up in each row that it gets. So an unknown
column is an error of the plan only when a row reaches it, and both agree if and only if that makes no difference
(**`plan_agrees_iff`**).
-/

namespace SystemDesignLabs.Sql

open Core SortedMap DirectExecutor

/-! ### The `WHERE` clause -/

/-- Whether the clause is truthy on a row; no clause is. -/
def whereValue (whereClause : Option Expr) (row : Row) : SqlResult Bool :=
  match whereClause with
  | none => .ok true
  | some pred => (evalExpr pred row).map Value.isTruthy

def WhereFails (whereClause : Option Expr) (row : Row) : Prop := ∃ e, whereValue whereClause row = .error e

def keeps (whereClause : Option Expr) (row : Row) : Bool :=
  match whereValue whereClause row with
  | .ok b => b
  | .error _ => false

variable {whereClause : Option Expr} {row : Row}

theorem whereValue_of_not_fails (h : ¬ WhereFails whereClause row) :
    whereValue whereClause row = .ok (keeps whereClause row) := by
  rw [keeps]
  cases hvalue : whereValue whereClause row with
  | ok b => rfl
  | error e => exact absurd ⟨e, hvalue⟩ h

theorem filterRow_eq (pred : Expr) (row : Row) :
    filterRow pred row = (whereValue (some pred) row).map fun b => if b then some row else none := by
  rw [filterRow, whereValue]
  cases evalExpr pred row <;> rfl

section Rows

variable {whereClause : Option Expr} {rows : List Row}

theorem filterPulls_of_not_fails (h : ∀ row ∈ rows, ¬ WhereFails whereClause row) :
    filterPulls whereClause rows = ⟨rows.filter (keeps whereClause), none⟩ := by
  cases whereClause with
  | none =>
    rw [filterPulls]
    congr 1
    exact (List.filter_eq_self.2 fun _ _ => rfl).symm
  | some pred =>
    refine rowwise_filter fun row hrow => ?_
    rw [filterRow_eq, whereValue_of_not_fails (h row hrow)]
    rfl

variable {f : Row → SqlResult (Option Row)}

theorem rowwise_err (rows : List Row) (e : SqlError) :
    ∃ e', (Pulls.rowwise f rows (some e)).err = some e' := by
  induction rows with
  | nil => exact ⟨e, rfl⟩
  | cons row rows ih =>
    rw [Pulls.rowwise]
    cases f row with
    | error e' => exact ⟨e', rfl⟩
    | ok out =>
      cases out with
      | none => exact ih
      | some out => exact ih

theorem rowwise_err_of_mem {err : Option SqlError} {row : Row} {e : SqlError} (hrow : row ∈ rows)
    (hf : f row = .error e) : ∃ e', (Pulls.rowwise f rows err).err = some e' := by
  induction rows with
  | nil => exact absurd hrow List.not_mem_nil
  | cons first rows ih =>
    rw [Pulls.rowwise]
    cases hfirst : f first with
    | error e' => exact ⟨e', rfl⟩
    | ok out =>
      have hmem : row ∈ rows := by
        refine (List.mem_cons.1 hrow).resolve_left ?_
        rintro rfl
        rw [hf] at hfirst
        cases hfirst
      cases out with
      | none => exact ih hmem
      | some out => exact ih hmem

theorem filterPulls_of_fails (h : ∃ row ∈ rows, WhereFails whereClause row) :
    ∃ e, (filterPulls whereClause rows).err = some e := by
  obtain ⟨row, hrow, e, he⟩ := h
  cases whereClause with
  | none => cases he
  | some pred =>
    refine rowwise_err_of_mem hrow (e := e) ?_
    rw [filterRow_eq, he]
    rfl

namespace DirectExecutor

theorem selectRow_eq (whereClause : Option Expr) (resultRows : List Row) (row : Row) :
    selectRow whereClause resultRows row =
      (whereValue whereClause row).map fun b => if b then resultRows ++ [row] else resultRows := by
  cases whereClause with
  | none => rfl
  | some pred =>
    rw [selectRow, whereValue]
    cases evalExpr pred row <;> rfl

theorem selectRows_of_not_fails (h : ∀ row ∈ rows, ¬ WhereFails whereClause row) :
    selectRows whereClause rows = .ok (rows.filter (keeps whereClause)) := by
  suffices hfrom : ∀ resultRows, rows.foldlM (selectRow whereClause) resultRows =
      .ok (resultRows ++ rows.filter (keeps whereClause)) from hfrom []
  induction rows with
  | nil =>
    intro resultRows
    rw [List.filter_nil, List.append_nil]
    rfl
  | cons row rows ih =>
    intro resultRows
    rw [List.foldlM_cons, selectRow_eq, whereValue_of_not_fails (h row List.mem_cons_self), List.filter_cons]
    refine (ih (fun r hr => h r (List.mem_cons_of_mem _ hr)) _).trans ?_
    congr 1
    cases hkeeps : keeps whereClause row with
    | true => exact List.append_cons resultRows row _ |>.symm
    | false => rfl

theorem selectRows_of_fails (h : ∃ row ∈ rows, WhereFails whereClause row) :
    ∃ e, selectRows whereClause rows = .error e := by
  suffices hfrom : ∀ resultRows, ∃ e, rows.foldlM (selectRow whereClause) resultRows = .error e from hfrom []
  induction rows with
  | nil =>
    obtain ⟨row, hrow, -⟩ := h
    exact absurd hrow List.not_mem_nil
  | cons first rows ih =>
    intro resultRows
    rw [List.foldlM_cons, selectRow_eq]
    cases hfirst : whereValue whereClause first with
    | error e => exact ⟨e, rfl⟩
    | ok b =>
      refine ih ?_ _
      obtain ⟨row, hrow, e, he⟩ := h
      refine ⟨row, (List.mem_cons.1 hrow).resolve_left ?_, e, he⟩
      rintro rfl
      rw [he] at hfirst
      cases hfirst

end DirectExecutor

end Rows

/-! ### The projection -/

/-- A row with all the columns of a list. -/
def Has (columns : List String) (row : Row) : Prop := ∀ name ∈ columns, (row.get name).isSome = true

variable {name : String}

theorem getColumn_of_isSome (h : (row.get name).isSome = true) :
    getColumn row name = .ok (valueOrNull row name) := by
  obtain ⟨v, hv⟩ := Option.isSome_iff_exists.1 h
  rw [getColumn, valueOrNull, hv]
  rfl

variable {columns : List String}

theorem projectColumns_of_has (h : Has columns row) :
    projectColumns row columns = .ok (DirectExecutor.projectNames columns row) := by
  rw [projectColumns, projectNames]
  generalize (empty : Row) = out
  induction columns generalizing out with
  | nil => rfl
  | cons name columns ih =>
    rw [List.foldlM_cons, getColumn_of_isSome (h name List.mem_cons_self), List.foldl_cons]
    exact ih (fun n hn => h n (List.mem_cons_of_mem _ hn)) _

theorem projectColumns_of_not_has (h : ¬ Has columns row) :
    ∃ e, projectColumns row columns = .error e := by
  rw [projectColumns]
  generalize (empty : Row) = out
  induction columns generalizing out with
  | nil => exact absurd (fun name hname => absurd hname List.not_mem_nil) h
  | cons name columns ih =>
    rw [List.foldlM_cons]
    by_cases hname : (row.get name).isSome = true
    · rw [getColumn_of_isSome hname]
      exact ih (fun hrest => h (List.forall_mem_cons.2 ⟨hname, hrest⟩)) _
    · rw [getColumn, Option.not_isSome_iff_eq_none.1 hname]
      exact ⟨_, rfl⟩

variable {rows : List Row}

theorem rowwise_projectRow_of_has (hcolumns : columns ≠ []) (h : ∀ row ∈ rows, Has columns row) :
    Pulls.rowwise (projectRow columns) rows none = ⟨rows.map (DirectExecutor.projectNames columns), none⟩ := by
  induction rows with
  | nil => rfl
  | cons row rows ih =>
    have hrow : projectRow columns row = .ok (some (projectNames columns row)) := by
      rw [projectRow, if_neg (by rwa [List.isEmpty_iff]), projectColumns_of_has (h row List.mem_cons_self)]
    rw [Pulls.rowwise, hrow]
    simp only [ih fun r hr => h r (List.mem_cons_of_mem _ hr)]
    rfl

theorem rowwise_projectRow_of_not_has (hcolumns : columns ≠ []) (h : ∃ row ∈ rows, ¬ Has columns row) :
    ∃ e, (Pulls.rowwise (projectRow columns) rows none).err = some e := by
  obtain ⟨row, hrow, hnot⟩ := h
  obtain ⟨e, he⟩ := projectColumns_of_not_has hnot
  refine rowwise_err_of_mem hrow (e := e) ?_
  rw [projectRow, if_neg (by rwa [List.isEmpty_iff]), he]

theorem projectNames_eq_iff (columns : List String) (row : Row) :
    DirectExecutor.projectNames columns row = row ↔ ∀ name, (row.get name).isSome = true ↔ name ∈ columns := by
  have hget : ∀ name, (projectNames columns row).get name =
      if name ∈ columns then some (valueOrNull row name) else none := by
    intro name
    suffices hfrom : ∀ out : Row, (columns.foldl (fun out col => out.insert col (valueOrNull row col)) out).get name =
        if name ∈ columns then some (valueOrNull row name) else out.get name from hfrom empty
    induction columns with
    | nil => exact fun out => (if_neg List.not_mem_nil).symm
    | cons col columns ih =>
      intro out
      rw [List.foldl_cons, ih, get_insert]
      by_cases hcol : name = col
      · subst hcol
        simp
      · simp [hcol]
  constructor
  · intro h name
    rw [← h, hget]
    split
    · next hmem => exact ⟨fun _ => hmem, fun _ => rfl⟩
    · next hmem => exact ⟨fun h => absurd h (by simp), fun h => absurd h hmem⟩
  · intro h
    ext1 name
    rw [hget]
    split
    · next hmem =>
      obtain ⟨v, hv⟩ := Option.isSome_iff_exists.1 ((h name).2 hmem)
      rw [valueOrNull, hv]
      rfl
    · next hmem => exact (Option.not_isSome_iff_eq_none.1 fun hsome => hmem ((h name).1 hsome)).symm

/-! ### Agreement -/

/-- Both are the same rows, or both are errors. -/
def SameRows : SqlResult (List Row) → SqlResult (List Row) → Prop
  | .ok rows, .ok rows' => rows = rows'
  | .error _, .error _ => True
  | _, _ => False

/-- The check of the columns in the schema and the check in the rows make no difference: the clause fails on a row, or

- the plan passes rows through (for a star), and the kept rows have the columns of the schema and no others;
- or it does not, and the selected columns are all in the schema exactly when the kept rows have all of them. -/
def ChecksAlike (table : Table) (columns : List SelectCol) (whereClause : Option Expr) : Prop :=
  (∃ row ∈ table.rows, WhereFails whereClause row) ∨
    if projectedColumns columns = [] then
      ∀ row ∈ table.rows, keeps whereClause row = true →
        ∀ name, (row.get name).isSome = true ↔ name ∈ DirectExecutor.outputColumns columns table.schema
    else
      (∀ name ∈ projectedColumns columns, table.hasColumn name = true) ↔
        ∀ row ∈ table.rows, keeps whereClause row = true → Has (projectedColumns columns) row

/-- A `SELECT` over one table without order and limit. -/
def plainSelect (columns : List SelectCol) (name : String) (whereClause : Option Expr) : SelectStmt :=
  ⟨columns, name, none, whereClause, none, none, none⟩

variable {tables : Tables} {table : Table}

section

variable (htable : tables.get name = some table)
include htable

theorem runSelect_plain (columns : List SelectCol)
    (whereClause : Option Expr) :
    runSelect tables IndexManager.new (plainSelect columns name whereClause) =
      (projectPulls columns (filterPulls whereClause table.rows)).result := by
  have hbase : baseRows IndexManager.new name table whereClause = table.rows := by
    rw [baseRows, usableIndex]
    cases whereClause.bind extractEquality <;> rfl
  rw [runSelect_eq, selectPulls, plainSelect]
  simp only [htable, joinRows, hbase]
  rfl

section

variable (hrows : DirectExecutor.selectRows whereClause table.rows = .ok rows)
include hrows

theorem execSelect_of_columns {columns : List SelectCol}
    (hcolumns : ∀ col ∈ DirectExecutor.outputColumns columns table.schema, table.hasColumn col = true) :
    (DirectExecutor.execSelect tables (plainSelect columns name whereClause)).map QueryResult.rows =
      .ok (rows.map (DirectExecutor.projectNames (DirectExecutor.outputColumns columns table.schema))) := by
  have hfind : ((outputColumns columns table.schema).find? fun col =>
      !table.schema.any fun c => c.name = col) = none := by
    rw [List.find?_eq_none]
    intro col hcol
    have hhas := hcolumns col hcol
    rw [Table.hasColumn] at hhas
    rw [hhas]
    decide
  rw [DirectExecutor.execSelect, plainSelect]
  simp only [htable, hrows]
  show Except.map _ (Except.bind (project rows columns table.schema) _) = _
  rw [project]
  simp only [hfind]
  rfl

theorem execSelect_of_not_column {columns : List SelectCol}
    (hcolumns : ¬ ∀ col ∈ DirectExecutor.outputColumns columns table.schema, table.hasColumn col = true) :
    ∃ e, (DirectExecutor.execSelect tables (plainSelect columns name whereClause)).map QueryResult.rows = .error e := by
  rw [DirectExecutor.execSelect, plainSelect]
  simp only [htable, hrows]
  show ∃ e, Except.map _ (Except.bind (project rows columns table.schema) _) = _
  rw [project]
  cases hfind : (outputColumns columns table.schema).find? fun col =>
      !table.schema.any fun c => c.name = col with
  | some col => exact ⟨_, rfl⟩
  | none =>
    refine absurd (fun col hcol => ?_) hcolumns
    have hnot := List.find?_eq_none.1 hfind col hcol
    simpa [Table.hasColumn] using hnot

end

end

theorem outputColumns_cases (columns : List SelectCol) (table : Table) : (projectedColumns columns = [] ∧
        ∀ col ∈ DirectExecutor.outputColumns columns table.schema, table.hasColumn col = true) ∨
      projectedColumns columns ≠ [] ∧ DirectExecutor.outputColumns columns table.schema = projectedColumns columns := by
  rw [projectedColumns, outputColumns]
  split
  · exact Or.inl ⟨rfl, fun col hcol => Table.hasColumn_iff.2 hcol⟩
  · by_cases hnil : columns.map SelectCol.name = []
    · rw [hnil]
      exact Or.inl ⟨rfl, fun col hcol => absurd hcol List.not_mem_nil⟩
    · exact Or.inr ⟨hnil, rfl⟩

theorem map_eq_self_iff {A : Type} {f : A → A} {l : List A} : l.map f = l ↔ ∀ a ∈ l, f a = a := by
  constructor
  · intro h a ha
    exact List.map_inj_left.1 (h.trans (List.map_id l).symm) a ha
  · intro h
    exact (List.map_congr_left h).trans (List.map_id l)

/-- **The plan and the direct executor agree if and only if both checks of the columns do.** -/
theorem plan_agrees_iff (tables : Tables) (columns : List SelectCol) (name : String) (whereClause : Option Expr) :
    SameRows (runSelect tables IndexManager.new (plainSelect columns name whereClause))
        ((DirectExecutor.execSelect tables (plainSelect columns name whereClause)).map QueryResult.rows) ↔
      ∀ table, tables.get name = some table → ChecksAlike table columns whereClause := by
  cases htable : tables.get name with
  | none =>
    have hplan : runSelect tables IndexManager.new (plainSelect columns name whereClause) =
        .error (.tableNotFound name) := by
      rw [runSelect_eq, selectPulls, plainSelect]
      simp only [htable]
      rfl
    have hdirect : (DirectExecutor.execSelect tables (plainSelect columns name whereClause)).map QueryResult.rows =
        .error (.tableNotFound name) := by
      rw [DirectExecutor.execSelect, plainSelect]
      simp only [htable]
      rfl
    rw [hplan, hdirect]
    exact ⟨fun _ table h => (by cases h), fun _ => trivial⟩
  | some table =>
    rw [runSelect_plain htable]
    have hone : (∀ t, some table = some t → ChecksAlike t columns whereClause) ↔
        ChecksAlike table columns whereClause :=
      ⟨fun h => h table rfl, fun h t ht => Option.some.inj ht ▸ h⟩
    rw [hone, ChecksAlike, projectPulls]
    by_cases hfails : ∃ row ∈ table.rows, WhereFails whereClause row
    · -- the clause fails in both executors
      obtain ⟨e, he⟩ := filterPulls_of_fails hfails
      obtain ⟨e', he'⟩ := DirectExecutor.selectRows_of_fails hfails
      obtain ⟨e'', he''⟩ := @rowwise_err (projectRow (projectedColumns columns))
        (filterPulls whereClause table.rows).rows e
      have hdirect : (DirectExecutor.execSelect tables (plainSelect columns name whereClause)).map
          QueryResult.rows = .error e' := by
        rw [DirectExecutor.execSelect, plainSelect]
        simp only [htable, he']
        rfl
      rw [he, Pulls.result, he'', hdirect]
      exact ⟨fun _ => Or.inl hfails, fun _ => trivial⟩
    · have hnone : ∀ row ∈ table.rows, ¬ WhereFails whereClause row := fun row hrow h => hfails ⟨row, hrow, h⟩
      have hrows := DirectExecutor.selectRows_of_not_fails hnone
      rw [filterPulls_of_not_fails hnone, or_iff_right hfails]
      -- what is said of the kept rows is said of the rows of the filter
      have hkept : ∀ P : Row → Prop, (∀ row ∈ table.rows, keeps whereClause row = true → P row) ↔
          ∀ row ∈ table.rows.filter (keeps whereClause), P row := fun P =>
        ⟨fun h row hrow => h row (List.mem_filter.1 hrow).1 (List.mem_filter.1 hrow).2,
          fun h row hrow hk => h row (List.mem_filter.2 ⟨hrow, hk⟩)⟩
      rw [hkept, hkept]
      generalize table.rows.filter (keeps whereClause) = kept at hrows ⊢
      rcases outputColumns_cases columns table with ⟨hnil, hall⟩ | ⟨hne, hsame⟩
      · have hthrough : Pulls.rowwise (projectRow []) kept none = ⟨kept, none⟩ := by
          have hrow := @rowwise_filter kept (projectRow []) (fun _ => true) fun r _ => rfl
          rwa [List.filter_true] at hrow
        rw [execSelect_of_columns htable hrows hall, hnil, hthrough, if_pos rfl]
        show kept = kept.map _ ↔ _
        rw [eq_comm, map_eq_self_iff]
        simp only [projectNames_eq_iff]
      · rw [if_neg hne]
        by_cases hcolumns : ∀ col ∈ projectedColumns columns, table.hasColumn col = true
        · rw [execSelect_of_columns htable hrows (by rwa [hsame]), hsame]
          by_cases hhas : ∀ row ∈ kept, Has (projectedColumns columns) row
          · rw [rowwise_projectRow_of_has hne hhas]
            exact ⟨fun _ => ⟨fun _ => hhas, fun _ => hcolumns⟩, fun _ => rfl⟩
          · obtain ⟨e, he⟩ := rowwise_projectRow_of_not_has hne (by simpa using hhas)
            rw [Pulls.result, he]
            exact ⟨fun h => h.elim, fun h => absurd (h.1 hcolumns) hhas⟩
        · obtain ⟨e', he'⟩ := execSelect_of_not_column htable hrows (by rwa [hsame])
          rw [he']
          by_cases hhas : ∀ row ∈ kept, Has (projectedColumns columns) row
          · rw [rowwise_projectRow_of_has hne hhas]
            exact ⟨fun h => h.elim, fun h => absurd (h.2 hhas) hcolumns⟩
          · obtain ⟨e, he⟩ := rowwise_projectRow_of_not_has hne (by simpa using hhas)
            rw [Pulls.result, he]
            exact ⟨fun _ => ⟨fun h => absurd h hcolumns, fun h => absurd h hhas⟩, fun _ => trivial⟩

/-- `SELECT nonexistent FROM t` on a table without rows: an error of the direct executor, no row of the plan. -/
theorem unknown_column_of_empty_table :
    let tables : Tables := empty.insert "t" (Table.new "t" [⟨"id", .int, true⟩])
    runSelect tables IndexManager.new (plainSelect [.named "nonexistent"] "t" none) = .ok [] ∧
      (DirectExecutor.execSelect tables (plainSelect [.named "nonexistent"] "t" none)).map QueryResult.rows =
        .error (.columnNotFound "nonexistent") := by
  constructor
  · rfl
  · rfl

end SystemDesignLabs.Sql

import SystemDesignLabs.Sql.Invariant

/-!
# Selecting with and without indexes

An index scan returns the base rows whose column has the value of the `WHERE` clause. After a join the
filter looks at the merged row, in which a column of the joined table hides the column of the same name
of the base table. So a joined row may pass the filter although its base row does not have the value:
a sequential scan finds it, an index scan does not. `NotShadowed` says that there is no such row;
`select_transparent_iff` says that this is exactly when the indexes make no difference.
-/

namespace SystemDesignLabs.Sql

open List Option Core Database

/-! ### The filter on an equality -/

variable {col : String}

theorem filterRow_equality {e : Expr} {v w : Value} {row : Row} (he : extractEquality e = some (col, v))
    (hw : row.get col = some w) : filterRow e row = .ok (if v ≠ .null ∧ w = v then some row else none) := by
  have htruthy : ∀ a b : Value, (evalBinop a .eq b).isTruthy = decide (b ≠ .null ∧ a = b) := by
    intro a b
    unfold evalBinop
    by_cases hb : b = .null
    · subst hb
      simp [Value.isTruthy]
    · by_cases ha : a = .null
      · subst ha
        simp [Value.isTruthy, Ne.symm hb]
      · simp [ha, hb, Value.isTruthy]
  have hcomm : ∀ a b : Value, (evalBinop a .eq b).isTruthy = (evalBinop b .eq a).isTruthy := by
    intro a b
    rw [htruthy, htruthy, decide_eq_decide]
    constructor
    · rintro ⟨hb, rfl⟩
      exact ⟨hb, rfl⟩
    · rintro ⟨ha, rfl⟩
      exact ⟨ha, rfl⟩
  have heval : ∃ x, evalExpr e row = .ok x ∧ x.isTruthy = decide (v ≠ .null ∧ w = v) := by
    unfold extractEquality at he
    split at he
    · cases he
      refine ⟨evalBinop w .eq v, ?_, htruthy w v⟩
      simp only [evalExpr, getColumn, hw]
      rfl
    · cases he
      refine ⟨evalBinop v .eq w, ?_, (hcomm v w).trans (htruthy w v)⟩
      simp only [evalExpr, getColumn, hw]
      rfl
    · cases he
  obtain ⟨x, hx, htx⟩ := heval
  unfold filterRow
  simp only [hx, htx, decide_eq_true_eq]

variable {rows : List Row}

theorem rowwise_filter {f : Row → SqlResult (Option Row)} {keep : Row → Bool}
    (h : ∀ r ∈ rows, f r = .ok (if keep r then some r else none)) :
    Pulls.rowwise f rows none = ⟨rows.filter keep, none⟩ := by
  induction rows with
  | nil => rfl
  | cons r rows ih =>
    have hrest := ih fun r hr => h r (mem_cons_of_mem _ hr)
    unfold Pulls.rowwise
    rw [h r mem_cons_self, filter_cons]
    cases keep r with
    | true =>
      simp only [if_true, hrest]
      rfl
    | false =>
      simp only [Bool.false_eq_true, if_false, hrest]

/-! ### Leaving out base rows -/

theorem flatMap_filter_eq_iff {A B : Type} {q : A → Bool} {g : A → List B} {l : List A} :
    (l.filter q).flatMap g = l.flatMap g ↔ ∀ x ∈ l, q x = false → g x = [] := by
  constructor
  · intro heq
    -- both sides have the same length, and each element left out is missing on the left
    have hlength : ∀ l : List A, ((l.filter q).flatMap g).length ≤ (l.flatMap g).length := by
      intro l
      induction l with
      | nil => exact le_refl _
      | cons x l ih =>
        rw [filter_cons, flatMap_cons, length_append]
        split
        · rw [flatMap_cons, length_append]
          omega
        · omega
    induction l with
    | nil => exact fun x hx => absurd hx (by simp)
    | cons y l ih =>
      rw [filter_cons, flatMap_cons] at heq
      cases hy : q y with
      | true =>
        rw [hy, if_pos rfl, flatMap_cons, append_cancel_left_eq] at heq
        intro x hx hqx
        rcases mem_cons.1 hx with rfl | hx
        · rw [hy] at hqx
          cases hqx
        · exact ih heq x hx hqx
      | false =>
        rw [hy, if_neg Bool.false_ne_true] at heq
        have hlen := congrArg length heq
        rw [length_append] at hlen
        have hnil : g y = [] := eq_nil_of_length_eq_zero (by
          have := hlength l
          omega)
        rw [hnil, nil_append] at heq
        intro x hx hqx
        rcases mem_cons.1 hx with rfl | hx
        · exact hnil
        · exact ih heq x hx hqx
  · intro h
    induction l with
    | nil => rfl
    | cons x l ih =>
      have hrest := ih fun y hy => h y (mem_cons_of_mem _ hy)
      rw [filter_cons, flatMap_cons]
      cases hx : q x with
      | true => rw [if_pos rfl, flatMap_cons, hrest]
      | false =>
        rw [if_neg Bool.false_ne_true, hrest, h x mem_cons_self hx, nil_append]

/-- The rows of a table, none if it does not exist. -/
def rowsOf (tables : Tables) (name : String) : List Row :=
  match tables.get name with
  | some table => table.rows
  | none => []

/-- The rows that one base row contributes to the join. -/
def expand (tables : Tables) (join : Option JoinClause) (row : Row) : List Row :=
  match join with
  | none => [row]
  | some join => matchesOf join.leftCol join.rightCol (rowsOf tables join.table) row

theorem joinRows_eq (tables : Tables) (join : Option JoinClause) : (∃ j, join = some j ∧ rowsOf tables j.table = [] ∧
        ∀ rows, joinRows tables join rows = .error (.tableNotFound j.table)) ∨
      ∀ rows, joinRows tables join rows = .ok (rows.flatMap (expand tables join)) := by
  unfold joinRows expand rowsOf
  cases join with
  | none => exact Or.inr fun rows => by rw [flatMap_singleton']
  | some join =>
    cases hright : tables.get join.table with
    | none => exact Or.inl ⟨join, rfl, by simp only [hright], fun rows => by simp only [hright]⟩
    | some rightTable => exact Or.inr fun rows => by simp only [hright]

/-! ### The base scan of a reached database -/

variable {table : Table}

/-- Without a usable index the base scan is sequential. With one, it returns the rows that have the value
in the column, and the table has the column. -/
theorem baseRows_cases {db : Database} (hinv : db.Inv) {name : String}
    (htable : db.tables.get name = some table) (whereClause : Option Expr) :
    (baseRows db.indexes name table whereClause = table.rows ∧
        ∀ col v, whereClause.bind extractEquality = some (col, v) → db.indexes.hasIndex name col = false) ∨
      ∃ col v, whereClause.bind extractEquality = some (col, v) ∧ db.indexes.hasIndex name col = true ∧
        baseRows db.indexes name table whereClause = table.rows.filter (fun r => valueOrNull r col = v) ∧
        ∀ row ∈ table.rows, (row.get col).isSome = true := by
  unfold baseRows usableIndex
  cases hwhere : whereClause.bind extractEquality with
  | none => exact Or.inl ⟨rfl, fun col v h => absurd h (by simp)⟩
  | some p =>
    obtain ⟨col, v⟩ := p
    simp only [IndexManager.lookup]
    cases hidx : db.indexes.indexes.get (indexKey name col) with
    | none =>
      refine Or.inl ⟨rfl, ?_⟩
      intro col' v' h
      cases h
      unfold IndexManager.hasIndex
      rw [hidx]
      rfl
    | some idx =>
      obtain ⟨hkey, t, ht, hcol, htracks⟩ := hinv.indexes hidx
      obtain ⟨hname, hcolumn⟩ :=
        indexKey_inj (hinv.tables htable).noDot (hinv.tables ht).noDot hkey
      rw [← hname, htable, some.injEq] at ht
      subst ht
      refine Or.inr ⟨col, v, rfl, ?_, ?_, ?_⟩
      · unfold IndexManager.hasIndex
        rw [hidx]
        rfl
      · show takeSome ((idx.lookup v).map fun i => table.rows[i]?) = _
        rw [htracks v, ← hcolumn, positions_rows, takeSome_map_some]
      · intro row hrow
        rw [((hinv.tables htable).columns row hrow) col, hcolumn]
        exact Table.hasColumn_iff.1 hcol

/-- No joined row passes the filter through a value of the joined table alone: if the `WHERE` clause is
an equality of a column and a value other than `NULL`, with an index on the column, then a row of the
joined table that has the value in a column of this name is joined only to rows that have it too. -/
def NotShadowed (tables : Tables) (indexes : IndexManager) (name : String)
    (join : Option JoinClause) (whereClause : Option Expr) : Prop :=
  match whereClause.bind extractEquality, join with
  | some (col, v), some join => v ≠ .null → indexes.hasIndex name col = true →
      ∀ left ∈ rowsOf tables name, ∀ right ∈ rowsOf tables join.table,
        joins join.leftCol join.rightCol left right = true → right.get col = some v →
          left.get col = some v
  | _, _ => True

instance (tables : Tables) (indexes : IndexManager) (name : String) (join : Option JoinClause)
    (whereClause : Option Expr) :
    Decidable (NotShadowed tables indexes name join whereClause) := by
  unfold NotShadowed
  split <;> infer_instance

/-- The rows that pass the filter of an equality. -/
def passes (col : String) (v : Value) (row : Row) : Bool := v ≠ .null ∧ row.get col = some v

variable {tables : Tables} {join : Option JoinClause}

theorem expand_passes_eq_nil_iff {v : Value} {left : Row} (hleft : left.get col ≠ some v) :
    (expand tables join left).filter (passes col v) = [] ↔
      ∀ j, join = some j → v ≠ .null → ∀ right ∈ rowsOf tables j.table,
        joins j.leftCol j.rightCol left right = true → right.get col ≠ some v := by
  unfold expand
  cases join with
  | none =>
    constructor
    · exact fun _ j hj => absurd hj (by simp)
    · intro _
      simp [passes, hleft]
  | some join =>
    simp only
    rw [filter_eq_nil_iff]
    constructor
    · intro h j hj hv right hmem hjoins hget
      cases hj
      apply h (mergeRows left right)
        (mem_map.2 ⟨right, mem_filter.2 ⟨hmem, hjoins⟩, rfl⟩)
      simp [passes, hv, get_mergeRows, hget]
    · intro h merged hmerged hpasses
      obtain ⟨right, hmem, rfl⟩ := mem_map.1 hmerged
      obtain ⟨hmem, hjoins⟩ := mem_filter.1 hmem
      obtain ⟨hv, hget⟩ := of_decide_eq_true hpasses
      have hne := h join rfl hv right hmem hjoins
      rw [get_mergeRows] at hget
      cases hr : right.get col with
      | none =>
        rw [hr, none_or] at hget
        exact hleft hget
      | some w =>
        rw [hr, some_or] at hget
        exact hne (hr.trans hget)

theorem filtered_eq_iff {db : Database} {name : String} (htable : db.tables.get name = some table)
    {whereClause : Option Expr} {v : Value} (hwhere : whereClause.bind extractEquality = some (col, v))
    (hindex : db.indexes.hasIndex name col = true) (hsome : ∀ row ∈ table.rows, (row.get col).isSome = true) :
    (((table.rows.filter fun r => valueOrNull r col = v).flatMap (expand db.tables join)).filter (passes col v) =
      (table.rows.flatMap (expand db.tables join)).filter (passes col v)) ↔
      NotShadowed db.tables db.indexes name join whereClause := by
  have hvalue : ∀ row ∈ table.rows, decide (valueOrNull row col = v) = false ↔
      row.get col ≠ some v := by
    intro row hrow
    obtain ⟨w, hw⟩ := isSome_iff_exists.1 (hsome row hrow)
    simp [valueOrNull, hw]
  rw [filter_flatMap, filter_flatMap, flatMap_filter_eq_iff]
  have hrows : rowsOf db.tables name = table.rows := by
    unfold rowsOf
    rw [htable]
  unfold NotShadowed
  rw [hwhere]
  cases join with
  | none =>
    simp only [iff_true]
    intro row hrow hq
    exact (expand_passes_eq_nil_iff ((hvalue row hrow).1 hq)).2 fun j hj => absurd hj (by simp)
  | some j =>
    simp only [hrows, hindex, forall_const]
    constructor
    · intro h hv left hleft right hright hjoins hget
      by_contra hne
      have hnil := h left hleft ((hvalue left hleft).2 hne)
      exact (expand_passes_eq_nil_iff hne).1 hnil j rfl hv right hright hjoins hget
    · intro h left hleft hq
      have hne := (hvalue left hleft).1 hq
      rw [expand_passes_eq_nil_iff hne]
      rintro j' hj' hv right hright hjoins hget
      cases hj'
      exact hne (h hv left hleft right hright hjoins hget)

theorem filterPulls_expand {e : Expr} {v : Value} (he : extractEquality e = some (col, v))
    (hsome : ∀ row ∈ rows, (row.get col).isSome = true) : filterPulls (some e) (rows.flatMap (expand tables join)) =
      ⟨(rows.flatMap (expand tables join)).filter (passes col v), none⟩ := by
  apply rowwise_filter
  intro merged hmerged
  -- a merged row has the columns of its base row
  have hget : ∃ w, merged.get col = some w := by
    obtain ⟨left, hleft, hmem⟩ := mem_flatMap.1 hmerged
    obtain ⟨w, hw⟩ := isSome_iff_exists.1 (hsome left hleft)
    cases join with
    | none =>
      rw [mem_singleton.1 hmem]
      exact ⟨w, hw⟩
    | some j =>
      obtain ⟨right, -, rfl⟩ := mem_map.1 hmem
      rw [get_mergeRows, hw]
      cases right.get col with
      | none => exact ⟨w, rfl⟩
      | some w' => exact ⟨w', rfl⟩
  obtain ⟨w, hw⟩ := hget
  rw [filterRow_equality he hw]
  simp [passes, hw]

theorem finish_star (name : String) (join : Option JoinClause) (whereClause : Option Expr) (rows : List Row) :
    finish ⟨[.star], name, join, whereClause, none, none, none⟩ ⟨rows, none⟩ = ⟨rows, none⟩ := by
  have hproject : Pulls.rowwise (projectRow []) rows none =
      ⟨rows.filter fun _ => true, none⟩ :=
    rowwise_filter fun r _ => by simp [projectRow]
  rw [filter_true] at hproject
  exact hproject

variable {sel : SelectStmt}

theorem execSelect_congr {indexes indexes' : IndexManager}
    (h : selectPulls tables indexes sel = selectPulls tables indexes' sel) :
    execSelect tables indexes sel = execSelect tables indexes' sel := by
  unfold execSelect
  rw [runSelect_eq, runSelect_eq, h]

theorem execSelect_rows {indexes : IndexManager} (h : selectPulls tables indexes sel = .ok ⟨rows, none⟩) :
    execSelect tables indexes sel = .ok (QueryResult.fromRows (deriveOutputColumns tables sel rows) rows) := by
  unfold execSelect
  rw [runSelect_eq, h]
  rfl

theorem selectPulls_of_join {indexes : IndexManager} (htable : tables.get sel.from' = some table)
    (hjoin : ∀ rows, joinRows tables sel.join rows = .ok (rows.flatMap (expand tables sel.join))) :
    selectPulls tables indexes sel = .ok (finish sel (filterPulls sel.whereClause
      ((baseRows indexes sel.from' table sel.whereClause).flatMap (expand tables sel.join)))) := by
  unfold selectPulls
  simp only [htable, hjoin]

/-- **Indexes make no difference to the statements over a base table, a join and a `WHERE` clause exactly
when no joined row is shadowed.** -/
theorem select_transparent_iff {db : Database} (h : Reached db) (name : String)
    (join : Option JoinClause) (whereClause : Option Expr) :
    (∀ (columns : List SelectCol) (orderBy : Option OrderBy) (limit offset : Option Nat),
      execSelect db.tables db.indexes
          ⟨columns, name, join, whereClause, orderBy, limit, offset⟩ =
        execSelect db.tables IndexManager.new
          ⟨columns, name, join, whereClause, orderBy, limit, offset⟩) ↔
      NotShadowed db.tables db.indexes name join whereClause := by
  have hinv := inv_of_reached h
  cases htable : db.tables.get name with
  | none =>
    have hrows : rowsOf db.tables name = [] := by
      unfold rowsOf
      rw [htable]
    constructor
    · intro _
      unfold NotShadowed
      split
      · rw [hrows]
        exact fun _ _ left hleft => absurd hleft (by simp)
      · trivial
    · intro _ columns orderBy limit offset
      apply execSelect_congr
      unfold selectPulls
      rw [htable]
  | some table =>
    have hnew : baseRows IndexManager.new name table whereClause = table.rows := by
      unfold baseRows usableIndex
      cases whereClause.bind extractEquality <;> rfl
    rcases baseRows_cases hinv htable whereClause with
      ⟨hbase, hnone⟩ | ⟨col, v, hwhere, hindex, hbase, hsome⟩
    · -- no usable index: both scans are sequential
      constructor
      · intro hall
        clear hall
        unfold NotShadowed
        split
        case h_1 hwhere =>
          rw [hnone _ _ hwhere]
          exact fun _ hindex => absurd hindex (by simp)
        case h_2 => trivial
      · intro _ columns orderBy limit offset
        apply execSelect_congr
        unfold selectPulls
        simp only [htable, hbase, hnew]
    · rcases joinRows_eq db.tables join with ⟨j, rfl, hright, herror⟩ | hjoin
      · -- the joined table does not exist: both statements fail
        constructor
        · intro _
          unfold NotShadowed
          rw [hwhere]
          simp only [hright]
          exact fun _ _ left _ right hmem => absurd hmem (by simp)
        · intro _ columns orderBy limit offset
          apply execSelect_congr
          unfold selectPulls
          simp only [htable, herror]
      · -- both statements finish the filtered rows
        obtain ⟨e, rfl, he⟩ := bind_eq_some_iff.1 hwhere
        have hidx : ∀ sel : SelectStmt, sel.from' = name → sel.join = join →
            sel.whereClause = some e →
            selectPulls db.tables db.indexes sel = .ok (finish sel ⟨((table.rows.filter fun r => valueOrNull r col =
              v).flatMap (expand db.tables join)).filter (passes col v), none⟩) := by
          intro sel hname hsel hpred
          subst hname hsel
          rw [selectPulls_of_join htable hjoin, hpred, hbase, filterPulls_expand he]
          exact fun row hrow => hsome row (mem_filter.1 hrow).1
        have hseq : ∀ sel : SelectStmt, sel.from' = name → sel.join = join →
            sel.whereClause = some e →
            selectPulls db.tables IndexManager.new sel = .ok (finish sel
              ⟨(table.rows.flatMap (expand db.tables join)).filter (passes col v), none⟩) := by
          intro sel hname hsel hpred
          subst hname hsel
          rw [selectPulls_of_join htable hjoin, hpred, hnew, filterPulls_expand he hsome]
        rw [← filtered_eq_iff htable hwhere hindex hsome]
        constructor
        · intro hall
          have hstar := hall [.star] none none none
          have hidx' := hidx ⟨[.star], name, join, some e, none, none, none⟩ rfl rfl rfl
          have hseq' := hseq ⟨[.star], name, join, some e, none, none, none⟩ rfl rfl rfl
          rw [finish_star] at hidx' hseq'
          rw [execSelect_rows hidx', execSelect_rows hseq', Except.ok.injEq] at hstar
          exact congrArg QueryResult.rows hstar
        · intro heq columns orderBy limit offset
          apply execSelect_congr
          rw [hidx _ rfl rfl rfl, hseq _ rfl rfl rfl, heq]

/-! ### A shadowed row -/

/-- Two tables with one row each, which the join on `b = c` brings together; both have a column `a`, and
the one of the first table has an index. -/
def sharedColumn (a c : Int64) : List Stmt :=
  [.createTable ⟨"t", [⟨"a", "INT", true⟩, ⟨"b", "INT", true⟩]⟩,
    .createTable ⟨"u", [⟨"a", "INT", true⟩, ⟨"c", "INT", true⟩]⟩,
    .insert ⟨"t", [], [[.literal (.int a), .literal (.int 7)]]⟩,
    .insert ⟨"u", [], [[.literal (.int c), .literal (.int 7)]]⟩,
    .createIndex ⟨"i", "t", "a"⟩]

def onBC : JoinClause := ⟨"u", "b", "c"⟩

def whereA (v : Int64) : Expr := .binOp (.column "a") .eq (.literal (.int v))

/-- **A `SELECT` whose result depends on the index.** `SELECT * FROM t JOIN u ON t.b = u.c WHERE a = 1`,
where the row of `t` has `a = 2` and the row of `u` has `a = 1`: the sequential scan finds the joined row,
the index scan no row. -/
theorem shadowedRow_lost : ∃ db, Reached db ∧
    (execSelect db.tables db.indexes
      ⟨[.star], "t", some onBC, some (whereA 1), none, none, none⟩).toOption.map
        (fun r => r.rows.length) = some 0 ∧
    (execSelect db.tables IndexManager.new
      ⟨[.star], "t", some onBC, some (whereA 1), none, none, none⟩).toOption.map
        (fun r => r.rows.length) = some 1 := by
  have hrun : (execIf step (fun _ stmt => decide stmt.FromParser) new
      (sharedColumn 2 1)).map (fun db => decide (
        (execSelect db.tables db.indexes
          ⟨[.star], "t", some onBC, some (whereA 1), none, none, none⟩).toOption.map
            (fun r => r.rows.length) = some 0 ∧
        (execSelect db.tables IndexManager.new
          ⟨[.star], "t", some onBC, some (whereA 1), none, none, none⟩).toOption.map
            (fun r => r.rows.length) = some 1)) = some true := by rfl
  obtain ⟨db, hdb, hrows⟩ := map_eq_some_iff.1 hrun
  exact ⟨db, ReachableIf.init.execIf (fun _ _ => of_decide_eq_true) hdb, of_decide_eq_true hrows⟩

/-- The same tables with other values: nothing is shadowed, and no `SELECT` depends on the index. -/
theorem select_transparent_unshadowed : ∃ db, Reached db ∧ db.indexes.hasIndex "t" "a" = true ∧
    ∀ (columns : List SelectCol) (orderBy : Option OrderBy) (limit offset : Option Nat),
      execSelect db.tables db.indexes
          ⟨columns, "t", some onBC, some (whereA 2), orderBy, limit, offset⟩ =
        execSelect db.tables IndexManager.new
          ⟨columns, "t", some onBC, some (whereA 2), orderBy, limit, offset⟩ := by
  have hrun : (execIf step (fun _ stmt => decide stmt.FromParser) new
      (sharedColumn 2 1)).map (fun db => decide (db.indexes.hasIndex "t" "a" = true ∧
        NotShadowed db.tables db.indexes "t" (some onBC) (some (whereA 2)))) = some true := by
    rfl
  obtain ⟨db, hdb, hfacts⟩ := map_eq_some_iff.1 hrun
  obtain ⟨hindex, hshadow⟩ := of_decide_eq_true hfacts
  have hreached : Reached db := ReachableIf.init.execIf (fun _ _ => of_decide_eq_true) hdb
  exact ⟨db, hreached, hindex,
    (select_transparent_iff hreached "t" (some onBC) (some (whereA 2))).2 hshadow⟩

end SystemDesignLabs.Sql

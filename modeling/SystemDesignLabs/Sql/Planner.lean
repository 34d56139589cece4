import SystemDesignLabs.Sql.Join

/-!
# Column indexes

An index maps the values of a column to the positions of the rows that have them. The manager keeps all
indexes in one map under the key `table.column`; an inserted row goes into every index whose key starts
with the name of the table and a dot. Names of tables contain no dot, since they come from the parser, so
these are just the indexes of the table (`startsWith_indexKey`).

`Tracks` says that an index is faithful to a list of rows: each value is mapped to the ascending list of
the positions that hold it.
-/

namespace SystemDesignLabs.Sql

open List Core

structure ColumnIndex where
  table : String
  column : String
  map : SortedMap Value (List Nat)

namespace ColumnIndex

def new (table column : String) : ColumnIndex := ⟨table, column, SortedMap.empty⟩

def insert (idx : ColumnIndex) (value : Value) (rowIdx : Nat) : ColumnIndex :=
  { idx with map := idx.map.insert value ((idx.map.get value).getD [] ++ [rowIdx]) }

def lookup (idx : ColumnIndex) (value : Value) : List Nat := (idx.map.get value).getD []

theorem lookup_insert (idx : ColumnIndex) (value : Value) (rowIdx : Nat) (w : Value) :
    (idx.insert value rowIdx).lookup w = idx.lookup w ++ if value = w then [rowIdx] else [] := by
  unfold lookup insert
  rw [SortedMap.get_insert]
  by_cases h : w = value
  · subst h
    rw [if_pos rfl, if_pos rfl]
    rfl
  · rw [if_neg h, if_neg (Ne.symm h), append_nil]

/-- Insert rows with their positions. -/
def insertRows (idx : ColumnIndex) (rows : List (Row × Nat)) : ColumnIndex :=
  rows.foldl (fun idx p => idx.insert (valueOrNull p.1 idx.column) p.2) idx

theorem insertRows_lookup (idx : ColumnIndex) (rows : List (Row × Nat)) (v : Value) : (idx.insertRows rows).lookup v =
      idx.lookup v ++ (rows.filter fun p => valueOrNull p.1 idx.column = v).map Prod.snd := by
  induction rows generalizing idx with
  | nil => simp [insertRows]
  | cons p rows ih =>
    show ((idx.insert (valueOrNull p.1 idx.column) p.2).insertRows rows).lookup v = _
    rw [ih, lookup_insert, append_assoc, filter_cons]
    show _ = _ ++ _
    by_cases h : valueOrNull p.1 idx.column = v
    · rw [if_pos h, if_pos (decide_eq_true h)]
      rfl
    · rw [if_neg h, if_neg (by simpa using h)]
      rfl

theorem insertRows_column (idx : ColumnIndex) (rows : List (Row × Nat)) :
    (idx.insertRows rows).table = idx.table ∧ (idx.insertRows rows).column = idx.column := by
  induction rows generalizing idx with
  | nil => exact ⟨rfl, rfl⟩
  | cons p rows ih => exact ih (idx.insert (valueOrNull p.1 idx.column) p.2)

end ColumnIndex

/-! ### Positions -/

/-- The positions of the rows with a value in a column. -/
def positions (rows : List Row) (col : String) (v : Value) : List Nat :=
  (rows.zipIdx.filter fun p => valueOrNull p.1 col = v).map Prod.snd

theorem positions_append (rows : List Row) (row : Row) (col : String) (v : Value) : positions (rows ++ [row]) col v =
      positions rows col v ++ if valueOrNull row col = v then [rows.length] else [] := by
  unfold positions
  rw [zipIdx_append, filter_append, map_append]
  by_cases h : valueOrNull row col = v
  · simp [h]
  · simp [h]

theorem positions_rows (rows : List Row) (col : String) (v : Value) : (positions rows col v).map (fun i => rows[i]?) =
      (rows.filter fun r => valueOrNull r col = v).map some := by
  have hat : ∀ p ∈ rows.zipIdx.filter (fun p => decide (valueOrNull p.1 col = v)),
      rows[p.2]? = some p.1 := fun p hp =>
    mem_zipIdx_iff_getElem?.1 (mem_filter.1 hp).1
  calc (positions rows col v).map (fun i => rows[i]?)
      = (rows.zipIdx.filter fun p => decide (valueOrNull p.1 col = v)).map
          fun p => rows[p.2]? := by rw [positions, map_map]; rfl
    _ = (rows.zipIdx.filter fun p => decide (valueOrNull p.1 col = v)).map
          fun p => some p.1 := map_congr_left hat
    _ = ((rows.zipIdx.map Prod.fst).filter fun r => decide (valueOrNull r col = v)).map some := by
          rw [filter_map, map_map]
          rfl
    _ = _ := by rw [zipIdx_map_fst]

/-- The index is faithful to the rows. -/
def ColumnIndex.Tracks (idx : ColumnIndex) (rows : List Row) : Prop :=
  ∀ v, idx.lookup v = positions rows idx.column v

theorem ColumnIndex.Tracks.insert {idx : ColumnIndex} {rows : List Row} (h : idx.Tracks rows)
    (row : Row) : (idx.insert (valueOrNull row idx.column) rows.length).Tracks (rows ++ [row]) := by
  intro v
  show _ = positions (rows ++ [row]) idx.column v
  rw [lookup_insert, positions_append, h v]

/-! ### The index manager -/

structure IndexManager where
  indexes : SortedMap String ColumnIndex

/-- The key of an index. -/
def indexKey (table column : String) : String := table ++ "." ++ column

def startsWith (s start : String) : Bool := start.toList.isPrefixOf s.toList

namespace IndexManager

def new : IndexManager := ⟨SortedMap.empty⟩

def buildIndex (m : IndexManager) (table column : String) (rows : List Row) : IndexManager :=
  ⟨m.indexes.insert (indexKey table column)
    ((ColumnIndex.new table column).insertRows rows.zipIdx)⟩

def indexRow (m : IndexManager) (table : String) (row : Row) (rowIdx : Nat) : IndexManager :=
  let relevant := (m.indexes.entries.map Prod.fst).filter fun k => startsWith k (table ++ ".")
  ⟨relevant.foldl (fun indexes key =>
    indexes.adjust key fun idx => idx.insert (valueOrNull row idx.column) rowIdx) m.indexes⟩

/-- The positions for an equality predicate, `none` if there is no index. -/
def lookup (m : IndexManager) (table column : String) (value : Value) : Option (List Nat) :=
  (m.indexes.get (indexKey table column)).map (·.lookup value)

def hasIndex (m : IndexManager) (table column : String) : Bool :=
  (m.indexes.get (indexKey table column)).isSome

theorem tracks_buildIndex (table column : String) (rows : List Row) :
    ((ColumnIndex.new table column).insertRows rows.zipIdx).Tracks rows := by
  intro v
  rw [ColumnIndex.insertRows_lookup, (ColumnIndex.insertRows_column _ _).2]
  rfl

theorem get_indexRow (m : IndexManager) (table : String) (row : Row) (rowIdx : Nat) (k : String) :
    (m.indexRow table row rowIdx).indexes.get k = if startsWith k (table ++ ".") then
        (m.indexes.get k).map fun idx => idx.insert (valueOrNull row idx.column) rowIdx else m.indexes.get k := by
  rw [indexRow]
  have hnodup : ((m.indexes.entries.map Prod.fst).filter
      fun k => startsWith k (table ++ ".")).Nodup := m.indexes.nodup_keys.filter _
  have hfold := SortedMap.get_foldl_adjust id
    (fun _ (idx : ColumnIndex) => idx.insert (valueOrNull row idx.column) rowIdx)
    (by rwa [map_id]) m.indexes k
  simp only [id] at hfold
  rw [hfold]
  by_cases hstart : startsWith k (table ++ ".") = true
  · rw [if_pos hstart]
    split
    · rfl
    · rename_i hfind
      -- a key that is not found is not in the map
      cases hk : m.indexes.get k with
      | none => rfl
      | some idx =>
        rw [find?_eq_none] at hfind
        have hmem : k ∈ m.indexes.entries.map Prod.fst :=
          mem_map.2 ⟨(k, idx), SortedMap.mem_entries_iff.2 hk, rfl⟩
        exact absurd (decide_eq_true rfl) (hfind k (mem_filter.2 ⟨hmem, hstart⟩))
  · rw [if_neg hstart]
    split
    · rename_i i hfind
      have hi := find?_some hfind
      have hmem := (mem_filter.1 (mem_of_find?_eq_some hfind)).2
      rw [of_decide_eq_true hi] at hmem
      exact absurd hmem hstart
    · rfl

end IndexManager

/-! ### Keys -/

/-- A name without a dot, as the parser's identifiers are. -/
def NoDot (name : String) : Prop := '.' ∉ name.toList

instance (name : String) : Decidable (NoDot name) := by
  rw [NoDot]
  infer_instance

theorem toList_indexKey (table column : String) :
    (indexKey table column).toList = table.toList ++ '.' :: column.toList := by
  rw [indexKey]
  rw [String.toList_append, String.toList_append, append_assoc]
  rfl

theorem split_dot {a a' b b' : List Char} (ha : '.' ∉ a) (ha' : '.' ∉ a')
    (h : a ++ '.' :: b = a' ++ '.' :: b') : a = a' ∧ b = b' := by
  induction a generalizing a' with
  | nil =>
    cases a' with
    | nil => exact ⟨rfl, (cons.inj h).2⟩
    | cons c a' =>
      exact absurd ((cons.inj h).1 ▸ mem_cons_self) ha'
  | cons c a ih =>
    cases a' with
    | nil => exact absurd ((cons.inj h).1 ▸ mem_cons_self) ha
    | cons c' a' =>
      obtain ⟨rfl, htail⟩ := cons.inj h
      obtain ⟨rfl, rfl⟩ := ih (fun hm => ha (mem_cons_of_mem _ hm))
        (fun hm => ha' (mem_cons_of_mem _ hm)) htail
      exact ⟨rfl, rfl⟩

theorem indexKey_inj {t t' c c' : String} (ht : NoDot t) (ht' : NoDot t')
    (h : indexKey t c = indexKey t' c') : t = t' ∧ c = c' := by
  have hlist := congrArg String.toList h
  rw [toList_indexKey, toList_indexKey] at hlist
  obtain ⟨hl, hr⟩ := split_dot ht ht' hlist
  exact ⟨String.toList_inj.1 hl, String.toList_inj.1 hr⟩

/-- The indexes that an inserted row goes into are those of its table. -/
theorem startsWith_indexKey {t t' c : String} (ht : NoDot t) (ht' : NoDot t') :
    startsWith (indexKey t' c) (t ++ ".") = true ↔ t' = t := by
  rw [startsWith]
  rw [List.isPrefixOf_iff_prefix, toList_indexKey, String.toList_append]
  constructor
  · rintro ⟨rest, hrest⟩
    rw [append_assoc] at hrest
    exact (String.toList_inj.1 (split_dot ht ht' hrest).1).symm
  · rintro rfl
    exact ⟨c.toList, by rw [append_assoc]; rfl⟩

/-!
## The planner

The plan of a `SELECT` is a tree of operators: a scan of the base table, then join, filter, sort, limit
and projection as far as the statement has them. The scan goes through an index when the whole `WHERE`
clause is the comparison of an unqualified column with a literal and the base table has an index on it.

`selectPulls` says what the tree yields, as a function of the tables and of the rows of the scan
(`runSelect_eq`).
-/

abbrev Tables := SortedMap String Table

/-- The column and the literal, if the expression is an equality of the two. -/
def extractEquality : Expr → Option (String × Value)
  | .binOp (.column col) .eq (.literal val) => some (col, val)
  | .binOp (.literal val) .eq (.column col) => some (col, val)
  | _ => none

namespace BoxedOperator

def seqScan (rows : List Row) : BoxedOperator := ⟨SeqScan, inferInstance, SeqScan.new rows⟩

def indexScan (rows : List Row) (matching : List Nat) : BoxedOperator :=
  ⟨IndexScan, inferInstance, IndexScan.new rows matching⟩

def join (b : BoxedOperator) (rightRows : List Row) (leftCol rightCol : String) : BoxedOperator :=
  ⟨NestedLoopJoin b.State, inferInstance, NestedLoopJoin.new b.state rightRows leftCol rightCol⟩

def filter (b : BoxedOperator) (predicate : Expr) : BoxedOperator :=
  ⟨Filter b.State, inferInstance, ⟨b.state, predicate⟩⟩

def sort (b : BoxedOperator) (orderBy : OrderBy) : BoxedOperator :=
  ⟨SortOp b.State, inferInstance, SortOp.new b.state orderBy⟩

def limitOffset (b : BoxedOperator) (limit : Option Nat) (offset : Nat) : BoxedOperator :=
  ⟨LimitOffset b.State, inferInstance, LimitOffset.new b.state limit offset⟩

def projection (b : BoxedOperator) (columns : List String) : BoxedOperator :=
  ⟨Projection b.State, inferInstance, ⟨b.state, columns⟩⟩

end BoxedOperator

/-- The positions that the index gives for the `WHERE` clause, if there is an index for it. -/
def usableIndex (indexes : IndexManager) (tableName : String) (whereClause : Option Expr) :
    Option (List Nat) :=
  match whereClause.bind extractEquality with
  | some (col, val) => indexes.lookup tableName col val
  | none => none

/-- The base scan: an index scan if there is a usable index, else a sequential scan. -/
def planBaseScan (tables : Tables) (indexes : IndexManager) (tableName : String)
    (whereClause : Option Expr) : Except SqlError BoxedOperator :=
  match tables.get tableName with
  | none => .error (.tableNotFound tableName)
  | some table => match usableIndex indexes tableName whereClause with
    | some matching => .ok (.indexScan table.rows matching)
    | none => .ok (.seqScan table.rows)

def planJoin (tables : Tables) (join : Option JoinClause) (base : BoxedOperator) :
    Except SqlError BoxedOperator :=
  match join with
  | none => .ok base
  | some join => match tables.get join.table with
    | none => .error (.tableNotFound join.table)
    | some rightTable => .ok (base.join rightTable.rows join.leftCol join.rightCol)

def planFilter (whereClause : Option Expr) (input : BoxedOperator) : BoxedOperator :=
  match whereClause with
  | some predicate => input.filter predicate
  | none => input

def planSort (orderBy : Option OrderBy) (input : BoxedOperator) : BoxedOperator :=
  match orderBy with
  | some order => input.sort order
  | none => input

def planLimit (limit offset : Option Nat) (input : BoxedOperator) : BoxedOperator :=
  if limit.isSome || offset.isSome then input.limitOffset limit (offset.getD 0) else input

def SelectCol.isStar : SelectCol → Bool
  | .star => true
  | _ => false

/-- The name under which a column is selected. -/
def SelectCol.name : SelectCol → String
  | .named n => n
  | .qualified _ n => n
  | .star => ""

/-- The columns of the projection; none stand for all. -/
def projectedColumns (columns : List SelectCol) : List String :=
  if columns.any SelectCol.isStar then [] else columns.map SelectCol.name

def plan (tables : Tables) (indexes : IndexManager) (sel : SelectStmt) :
    Except SqlError BoxedOperator :=
  match planBaseScan tables indexes sel.from' sel.whereClause with
  | .error e => .error e
  | .ok base => match planJoin tables sel.join base with
    | .error e => .error e
    | .ok afterJoin =>
      let afterFilter := planFilter sel.whereClause afterJoin
      let afterSort := planSort sel.orderBy afterFilter
      let afterLimit := planLimit sel.limit sel.offset afterSort
      .ok (afterLimit.projection (projectedColumns sel.columns))

/-- Plan a `SELECT` and drain the plan. -/
def runSelect (tables : Tables) (indexes : IndexManager) (sel : SelectStmt) : SqlResult (List Row) :=
  match plan tables indexes sel with
  | .error e => .error e
  | .ok root => collect root.state

/-! #### What the plan yields -/

/-- The rows of the base scan. -/
def baseRows (indexes : IndexManager) (tableName : String) (table : Table)
    (whereClause : Option Expr) : List Row :=
  match usableIndex indexes tableName whereClause with
  | some matching => takeSome (matching.map fun i => table.rows[i]?)
  | none => table.rows

/-- The rows after the join. -/
def joinRows (tables : Tables) (join : Option JoinClause) (rows : List Row) :
    SqlResult (List Row) :=
  match join with
  | none => .ok rows
  | some join => match tables.get join.table with
    | none => .error (.tableNotFound join.table)
    | some rightTable =>
      .ok (rows.flatMap (matchesOf join.leftCol join.rightCol rightTable.rows))

/-- The rows after the filter. -/
def filterPulls (whereClause : Option Expr) (rows : List Row) : Pulls :=
  match whereClause with
  | some predicate => Pulls.rowwise (filterRow predicate) rows none
  | none => ⟨rows, none⟩

def sortPulls (orderBy : Option OrderBy) (p : Pulls) : Pulls :=
  match orderBy with
  | none => p
  | some order => match p.err with
    | some e => ⟨[], some e⟩
    | none => ⟨sortRows order p.rows, none⟩

def limitPulls (limit offset : Option Nat) (p : Pulls) : Pulls :=
  if limit.isSome || offset.isSome then Pulls.skipLimit limit (offset.getD 0) p.rows p.err else p

def projectPulls (columns : List SelectCol) (p : Pulls) : Pulls :=
  Pulls.rowwise (projectRow (projectedColumns columns)) p.rows p.err

/-- Sort, limit and projection. -/
def finish (sel : SelectStmt) (p : Pulls) : Pulls :=
  projectPulls sel.columns (limitPulls sel.limit sel.offset (sortPulls sel.orderBy p))

def selectPulls (tables : Tables) (indexes : IndexManager) (sel : SelectStmt) : SqlResult Pulls :=
  match tables.get sel.from' with
  | none => .error (.tableNotFound sel.from')
  | some table =>
    match joinRows tables sel.join (baseRows indexes sel.from' table sel.whereClause) with
    | .error e => .error e
    | .ok rows => .ok (finish sel (filterPulls sel.whereClause rows))

/-- A boxed operator, once opened, yields `p`. -/
def BoxedOperator.Gives (b : BoxedOperator) (p : Pulls) : Prop := Yields (Operator.open' b.state) p

variable {b : BoxedOperator}

theorem gives_filter {rows : List Row} (h : b.Gives ⟨rows, none⟩) (whereClause : Option Expr) :
    (planFilter whereClause b).Gives (filterPulls whereClause rows) := by
  cases whereClause with
  | none => exact h
  | some predicate => exact Filter.yields h predicate

theorem gives_sort {p : Pulls} (h : b.Gives p) (orderBy : Option OrderBy) :
    (planSort orderBy b).Gives (sortPulls orderBy p) := by
  cases orderBy with
  | none => exact h
  | some order => exact SortOp.yields h order

theorem gives_limit {p : Pulls} (h : b.Gives p) (limit offset : Option Nat) :
    (planLimit limit offset b).Gives (limitPulls limit offset p) := by
  rw [planLimit, limitPulls]
  split
  · exact LimitOffset.yields h limit (offset.getD 0)
  · exact h

theorem planBaseScan_gives {tables : Tables} {name : String} {table : Table} (htable : tables.get name = some table)
    (indexes : IndexManager) (whereClause : Option Expr) :
    ∃ base, planBaseScan tables indexes name whereClause = .ok base ∧
      base.Gives ⟨baseRows indexes name table whereClause, none⟩ := by
  rw [planBaseScan, baseRows, htable]
  dsimp only
  cases usableIndex indexes name whereClause with
  | some matching => exact ⟨_, rfl, IndexScan.yields table.rows matching⟩
  | none => exact ⟨_, rfl, SeqScan.yields table.rows⟩

/-- The plan yields `selectPulls`, or fails with its error. -/
theorem plan_spec (tables : Tables) (indexes : IndexManager) (sel : SelectStmt) : match plan tables indexes sel with
    | .error e => selectPulls tables indexes sel = .error e
    | .ok root => ∃ p, selectPulls tables indexes sel = .ok p ∧ root.Gives p := by
  rw [plan, selectPulls]
  cases hfrom : tables.get sel.from' with
  | none =>
    rw [planBaseScan, hfrom]
  | some table =>
    obtain ⟨base, hok, hgives⟩ := planBaseScan_gives hfrom indexes sel.whereClause
    simp only [hok]
    have hafter : ∀ {afterJoin : BoxedOperator} {rows : List Row},
        afterJoin.Gives ⟨rows, none⟩ →
        (((planLimit sel.limit sel.offset (planSort sel.orderBy (planFilter sel.whereClause afterJoin))).projection
          (projectedColumns sel.columns))).Gives
          (finish sel (filterPulls sel.whereClause rows)) := fun h =>
      Projection.yields (gives_limit (gives_sort (gives_filter h _) _) _ _) _
    unfold planJoin joinRows
    cases sel.join with
    | none => exact ⟨_, rfl, hafter hgives⟩
    | some join =>
      cases hright : tables.get join.table with
      | none => simp only [hright]
      | some rightTable =>
        simp only [hright]
        exact ⟨_, rfl, hafter (NestedLoopJoin.yields hgives rightTable.rows _ _ 0)⟩

theorem runSelect_eq (tables : Tables) (indexes : IndexManager) (sel : SelectStmt) :
    runSelect tables indexes sel = (selectPulls tables indexes sel).bind Pulls.result := by
  have hspec := plan_spec tables indexes sel
  rw [runSelect]
  cases hplan : plan tables indexes sel with
  | error e =>
    rw [hplan] at hspec
    simp only at hspec
    rw [hspec]
    rfl
  | ok root =>
    rw [hplan] at hspec
    obtain ⟨p, hp, hgives⟩ := hspec
    rw [hp]
    exact collect_eq hgives

end SystemDesignLabs.Sql

import SystemDesignLabs.ColumnarStorage.Store

/-!
# Row groups and the pruning scan

A writer collects rows in a row group and starts a new one when the group is full. A finished group carries the least
and the greatest integer of each column; a scan leaves out the groups whose statistics rule out the predicate, and tests
the rows of the others.

The rows are split, in order, into the groups (`writeRows_spec`). No group that a predicate prunes has a row for which
the predicate holds (`matches_of_pruned`). The test of rows in a group is the one of the column store, except that no
double is less than another: it is true where the store's is and the predicate compares no double
(`evalPredInGroup_eq`). So a scan answers as the store does exactly when that does not matter
(`scan_eq_select_iff`).
-/

namespace SystemDesignLabs.ColumnarStorage

open Core SortedMap

/-! ### Statistics -/

structure ColumnStats where
  minInt : Option Int64
  maxInt : Option Int64
  nullCount : Nat
  distinctCount : Nat
  deriving DecidableEq

namespace ColumnStats

/-- The variables of the loop of `compute`. -/
structure Loop where
  minInt : Option Int64
  maxInt : Option Int64
  nullCount : Nat
  seen : List String

def Loop.start : Loop := ⟨none, none, 0, []⟩

/-- One value of the column. -/
def Loop.see (s : Loop) : Value → Loop
  | .null => { s with nullCount := s.nullCount + 1 }
  | .int n =>
    { s with
      minInt := some (s.minInt.elim n fun m => min m n)
      maxInt := some (s.maxInt.elim n fun m => max m n)
      seen := s.seen.insert (toString n.toInt) }
  | .str t => { s with seen := s.seen.insert t }
  | .bool b => { s with seen := s.seen.insert (toString b) }
  | .float bits => { s with seen := s.seen.insert (toString bits.toNat) }

def compute (col : ColumnData) : ColumnStats :=
  let s := col.foldl Loop.see .start
  ⟨s.minInt, s.maxInt, s.nullCount, s.seen.length⟩

def canSatisfy (stats : ColumnStats) : Predicate → Bool
  | .lt _ (.int threshold) => stats.minInt.all fun least => least < threshold
  | .eq _ (.int target) =>
    match stats.minInt, stats.maxInt with
    | some lo, some hi => lo ≤ target && target ≤ hi
    | _, _ => true
  | _ => true

end ColumnStats

/-! ### Row groups -/

structure RowGroup where
  columns : ColumnMap
  stats : SortedMap String ColumnStats
  size : Nat
  deriving DecidableEq

namespace RowGroup

def new (columnNames : List String) : RowGroup := ⟨emptyColumns columnNames, .empty, 0⟩

def finaliseStats (group : RowGroup) : RowGroup :=
  { group with stats := group.columns.entries.foldl (fun stats p => stats.insert p.1 (.compute p.2)) group.stats }

def maySatisfy (group : RowGroup) (pred : Predicate) : Bool :=
  match group.stats.get pred.columnName with
  | some stats => stats.canSatisfy pred
  | none => true

end RowGroup

/-! ### Writer -/

structure ParquetLiteWriter where
  columnNames : List String
  currentGroup : RowGroup
  finishedGroups : List RowGroup

/-- `get_mut(name).unwrap().push(val)`, which panics for an unknown column. -/
def pushCell (columns : ColumnMap) (name : String) (val : Value) : Option ColumnMap :=
  match columns.get name with
  | some col => some (columns.insert name (col ++ [val]))
  | none => none

/-- Push the cells of a row, name by name. -/
def pushRow (columnNames : List String) (row : Row) (columns : ColumnMap) : Option ColumnMap :=
  columnNames.foldlM (fun columns name => pushCell columns name ((row.get name).getD .null)) columns

namespace ParquetLiteWriter

def new (columnNames : List String) : ParquetLiteWriter := ⟨columnNames, .new columnNames, []⟩

def flushGroup (writer : ParquetLiteWriter) : ParquetLiteWriter where
  columnNames := writer.columnNames
  currentGroup := .new writer.columnNames
  finishedGroups := writer.finishedGroups ++ [writer.currentGroup.finaliseStats]

/-- `write_row`, or nothing where it panics. -/
def writeRow (rowGroupSize : Nat) (writer : ParquetLiteWriter) (row : Row) : Option ParquetLiteWriter :=
  (pushRow writer.columnNames row writer.currentGroup.columns).map fun columns =>
    let group := { writer.currentGroup with columns := columns, size := writer.currentGroup.size + 1 }
    let writer := { writer with currentGroup := group }
    if rowGroupSize ≤ group.size then writer.flushGroup else writer

def finish (writer : ParquetLiteWriter) : List RowGroup :=
  if 0 < writer.currentGroup.size then writer.flushGroup.finishedGroups else writer.finishedGroups

end ParquetLiteWriter

/-- Write rows to a new writer and finish it. -/
def writeRows (rowGroupSize : Nat) (columnNames : List String) (rows : List Row) : Option (List RowGroup) :=
  (rows.foldlM (ParquetLiteWriter.writeRow rowGroupSize) (ParquetLiteWriter.new columnNames)).map
    ParquetLiteWriter.finish

/-! ### Reader -/

def evalPredInGroup (group : RowGroup) : Predicate → Nat → Bool
  | .eq col expected, rowIdx =>
    match cell group.columns col rowIdx with
    | some actual => actual.eq expected
    | none => false
  | .lt col threshold, rowIdx =>
    match cell group.columns col rowIdx, threshold with
    | some (.int a), .int b => a < b
    | _, _ => false
  | .and left right, rowIdx => evalPredInGroup group left rowIdx && evalPredInGroup group right rowIdx

/-- The rows that `scan` takes from one group. -/
def scanGroup (projection : List String) (filter : Option Predicate) (group : RowGroup) : List (List Value) :=
  if filter.all fun pred => group.maySatisfy pred then
    (List.range group.size).flatMap fun rowIdx =>
      if filter.all fun pred => evalPredInGroup group pred rowIdx then [project group.columns projection rowIdx] else []
  else []

def scan (rowGroups : List RowGroup) (projection : List String) (filter : Option Predicate) : List (List Value) :=
  rowGroups.flatMap (scanGroup projection filter)

/-! ### Soundness of the statistics -/

namespace ColumnStats

theorem int64_max_ge (a b : Int64) : a ≤ max a b ∧ b ≤ max a b := by
  show a ≤ (if a ≤ b then b else a) ∧ b ≤ (if a ≤ b then b else a)
  by_cases h : a ≤ b
  · rw [if_pos h]
    exact ⟨h, Int64.le_refl b⟩
  · rw [if_neg h]
    exact ⟨Int64.le_refl a, (Int64.le_total b a).resolve_right h⟩

/-- All integers of the column are between the extremes. -/
def Bounds (least greatest : Option Int64) (col : ColumnData) : Prop :=
  ∀ n, Value.int n ∈ col → ∃ lo hi, least = some lo ∧ greatest = some hi ∧ lo ≤ n ∧ n ≤ hi

variable {col : ColumnData}

theorem Bounds.widen {lo hi lo' hi' : Int64} (h : Bounds (some lo) (some hi) col) (hlo : lo' ≤ lo)
    (hhi : hi ≤ hi') : Bounds (some lo') (some hi') col := by
  intro n hn
  obtain ⟨l, u, hl, hu, hln, hnu⟩ := h n hn
  cases hl
  cases hu
  exact ⟨lo', hi', rfl, rfl, Int64.le_trans hlo hln, Int64.le_trans hnu hhi⟩

theorem Bounds.append_other {least greatest : Option Int64} {v : Value} (h : Bounds least greatest col)
    (hv : ∀ n, v ≠ .int n) : Bounds least greatest (col ++ [v]) := by
  intro n hn
  rcases List.mem_append.1 hn with hcol | hlast
  · exact h n hcol
  · exact absurd (List.mem_singleton.1 hlast).symm (hv n)

theorem Bounds.append_int {lo hi n : Int64} (h : Bounds (some lo) (some hi) col) (hlo : lo ≤ n) (hhi : n ≤ hi) :
    Bounds (some lo) (some hi) (col ++ [.int n]) := by
  intro k hk
  rcases List.mem_append.1 hk with hcol | hlast
  · exact h k hcol
  · cases List.mem_singleton.1 hlast
    exact ⟨lo, hi, rfl, rfl, hlo, hhi⟩

/-- What the loop knows after a part of the column: bounds, and both or none of the extremes. -/
structure Sees (s : Loop) (col : ColumnData) : Prop where
  bounds : Bounds s.minInt s.maxInt col
  both : (∃ lo hi, s.minInt = some lo ∧ s.maxInt = some hi) ∨ (s.minInt = none ∧ s.maxInt = none)

theorem Sees.see {s : Loop} (h : Sees s col) (v : Value) : Sees (s.see v) (col ++ [v]) := by
  cases v with
  | null => exact ⟨h.bounds.append_other fun n hn => Value.noConfusion hn, h.both⟩
  | str t => exact ⟨h.bounds.append_other fun n hn => Value.noConfusion hn, h.both⟩
  | bool b => exact ⟨h.bounds.append_other fun n hn => Value.noConfusion hn, h.both⟩
  | float bits => exact ⟨h.bounds.append_other fun n hn => Value.noConfusion hn, h.both⟩
  | int n =>
    refine ⟨?_, Or.inl ⟨_, _, rfl, rfl⟩⟩
    have hbounds := h.bounds
    rcases h.both with ⟨lo, hi, hlo, hhi⟩ | ⟨hlo, hhi⟩
    · rw [hlo, hhi] at hbounds
      show Bounds (some (s.minInt.elim n fun m => min m n)) (some (s.maxInt.elim n fun m => max m n)) _
      rw [hlo, hhi]
      have hmax := int64_max_ge hi n
      exact (hbounds.widen Std.min_le_left hmax.1).append_int Std.min_le_right hmax.2
    · -- the first integer is both the least and the greatest
      show Bounds (some (s.minInt.elim n fun m => min m n)) (some (s.maxInt.elim n fun m => max m n)) _
      rw [hlo, hhi]
      intro k hk
      rcases List.mem_append.1 hk with hcol | hlast
      · obtain ⟨l, u, hl, -⟩ := hbounds k hcol
        exact absurd (hlo.symm.trans hl) (by simp)
      · cases List.mem_singleton.1 hlast
        exact ⟨n, n, rfl, rfl, Int64.le_refl n, Int64.le_refl n⟩

theorem sees_foldl {s : Loop} {seen : ColumnData} (h : Sees s seen) (col : ColumnData) :
    Sees (col.foldl Loop.see s) (seen ++ col) := by
  induction col generalizing s seen with
  | nil => rwa [List.append_nil]
  | cons v col ih =>
    have hrest := ih (h.see v)
    rwa [List.append_assoc] at hrest

theorem bounds_compute (col : ColumnData) : Bounds (compute col).minInt (compute col).maxInt col :=
  (sees_foldl ⟨fun _ hn => absurd hn List.not_mem_nil, Or.inr ⟨rfl, rfl⟩⟩ col).bounds

theorem matches_of_ruled_out {p : Predicate} (h : (compute col).canSatisfy p = false)
    {cellOf : String → Option Value} (hcell : ∀ v, cellOf p.columnName = some v → v ∈ col) :
    p.matches cellOf = false := by
  have hbounds := bounds_compute col
  rcases p with ⟨c, expected⟩ | ⟨c, threshold⟩ | ⟨left, right⟩
  · cases expected with
    | int target =>
      rw [Predicate.matches]
      cases hc : cellOf c with
      | none => rfl
      | some v =>
        cases v with
        | int n =>
          obtain ⟨lo, hi, hlo, hhi, hln, hnh⟩ := hbounds n (hcell _ hc)
          rw [canSatisfy, hlo, hhi] at h
          have hne : ¬ n = target := by
            rintro rfl
            simp [hln, hnh] at h
          exact decide_eq_false hne
        | _ => rfl
    | _ => exact absurd h (by simp [canSatisfy])
  · cases threshold with
    | int t =>
      rw [Predicate.matches]
      cases hc : cellOf c with
      | none => rfl
      | some v =>
        cases v with
        | int n =>
          obtain ⟨lo, hi, hlo, -, hln, -⟩ := hbounds n (hcell _ hc)
          rw [canSatisfy, hlo] at h
          have hnot : ¬ lo < t := of_decide_eq_false h
          have hge : ¬ n < t := fun hlt => hnot (Int64.lt_of_le_of_lt hln hlt)
          exact decide_eq_false hge
        | _ => rfl
    | _ => exact absurd h (by simp [canSatisfy])
  · exact absurd h (by simp [canSatisfy])

end ColumnStats

namespace RowGroup

/-- The statistics of the group are those of its columns. -/
def Finalised (group : RowGroup) : Prop :=
  ∀ col, group.stats.get col = (group.columns.get col).map .compute

theorem finalised_finaliseStats {group : RowGroup} (h : group.stats = .empty) : group.finaliseStats.Finalised := by
  intro col
  have hinsert : group.finaliseStats.stats =
      group.stats.insertAll (group.columns.entries.map fun p => (p.1, ColumnStats.compute p.2)) := by
    rw [insertAll, List.foldl_map]
    rfl
  have hsorted := SortedList.sorted_mapEntries (fun _ c => ColumnStats.compute c) group.columns.sorted
  have hfind := SortedList.find_mapEntries (fun _ c => ColumnStats.compute c) group.columns.entries col
  rw [hinsert, get_insertAll _ hsorted, h, get_empty, Option.or_none]
  exact hfind

/-- Pruning is sound. No row of a group that `may_satisfy` rules out satisfies the predicate. -/
theorem matches_of_pruned {group : RowGroup} (hfinal : group.Finalised) {p : Predicate}
    (h : group.maySatisfy p = false) (i : Nat) : p.matches (cell group.columns · i) = false := by
  rw [maySatisfy, hfinal] at h
  cases hc : group.columns.get p.columnName with
  | none =>
    rw [hc] at h
    exact absurd h (by simp)
  | some col =>
    rw [hc] at h
    apply ColumnStats.matches_of_ruled_out h
    intro v hv
    rw [cell, hc, Option.bind_some] at hv
    exact List.mem_of_getElem? hv

end RowGroup
/-! ### What the writer writes -/

/-- What the column of a group says of its rows: the value of each row, once for every time that the name is listed. -/
def columnOf (names : List String) (rows : List Row) (col : String) : ColumnData :=
  rows.flatMap fun row => List.replicate (names.count col) ((row.get col).getD .null)

/-- The group holds the rows. -/
structure RowGroup.Stores (group : RowGroup) (names : List String) (rows : List Row) : Prop where
  size : group.size = rows.length
  columns : ∀ col, group.columns.get col = if col ∈ names then some (columnOf names rows col) else none

theorem RowGroup.stores_new (names : List String) : (new names).Stores names [] :=
  ⟨rfl, get_emptyColumns names⟩

variable {names : List String}

theorem pushRow_eq_some (row : Row) {columns : ColumnMap} (hnames : ∀ name ∈ names, (columns.get name).isSome) :
    ∃ columns', pushRow names row columns = some columns' ∧ ∀ col, columns'.get col = (columns.get col).map
        (· ++ List.replicate (names.count col) ((row.get col).getD .null)) := by
  induction names generalizing columns with
  | nil =>
    refine ⟨columns, rfl, fun col => ?_⟩
    simp
  | cons name names ih =>
    obtain ⟨cells, hcells⟩ := Option.isSome_iff_exists.1 (hnames name List.mem_cons_self)
    have hpush : pushCell columns name ((row.get name).getD .null) =
        some (columns.insert name (cells ++ [(row.get name).getD .null])) := by
      rw [pushCell, hcells]
    have hget : ∀ col, (columns.insert name (cells ++ [(row.get name).getD .null])).get col =
        (columns.get col).map (· ++ if col = name then [(row.get name).getD .null] else []) := by
      intro col
      rw [get_insert]
      by_cases hcol : col = name
      · subst hcol
        rw [if_pos rfl, hcells, Option.map_some, if_pos rfl]
      · simp [hcol]
    have hrest : ∀ other ∈ names,
        ((columns.insert name (cells ++ [(row.get name).getD .null])).get other).isSome := by
      intro other hother
      rw [hget, Option.isSome_map]
      exact hnames other (List.mem_cons_of_mem _ hother)
    obtain ⟨columns', hpushed, hcolumns⟩ := ih hrest
    refine ⟨columns', ?_, fun col => ?_⟩
    · rw [pushRow, List.foldlM_cons, hpush]
      exact hpushed
    · rw [hcolumns, hget, Option.map_map, List.count_cons]
      congr 1
      funext l
      by_cases hcol : col = name
      · subst hcol
        simp [List.replicate_succ]
      · simp [hcol, Ne.symm hcol]

/-- The rows that the writer has got, group by group; `tail` are those of the group that is not full. -/
structure Written (rowGroupSize : Nat) (names : List String) (writer : ParquetLiteWriter) (chunks : List (List Row))
    (tail : List Row) : Prop where
  columnNames : writer.columnNames = names
  current : writer.currentGroup.Stores names tail
  stats : writer.currentGroup.stats = .empty
  finished : List.Forall₂ (fun (group : RowGroup) chunk => group.Stores names chunk ∧ group.Finalised)
    writer.finishedGroups chunks
  full : ∀ chunk ∈ chunks, chunk.length = max 1 rowGroupSize
  room : tail.length < max 1 rowGroupSize

section Writer

variable {rowGroupSize : Nat} {names : List String}

theorem written_new : Written rowGroupSize names (.new names) [] [] where
  columnNames := rfl
  current := RowGroup.stores_new names
  stats := rfl
  finished := .nil
  full _ h := absurd h List.not_mem_nil
  room := Nat.lt_of_lt_of_le Nat.zero_lt_one (Nat.le_max_left 1 rowGroupSize)

variable {writer : ParquetLiteWriter} {chunks : List (List Row)} {tail : List Row}

theorem finished_flush
    (hfinished : List.Forall₂ (fun (group : RowGroup) chunk => group.Stores names chunk ∧ group.Finalised) writer.finishedGroups chunks)
    (hcurrent : writer.currentGroup.Stores names tail) (hstats : writer.currentGroup.stats = .empty) :
    List.Forall₂ (fun (group : RowGroup) chunk => group.Stores names chunk ∧ group.Finalised)
      writer.flushGroup.finishedGroups (chunks ++ [tail]) := by
  have hstores : writer.currentGroup.finaliseStats.Stores names tail := ⟨hcurrent.size, hcurrent.columns⟩
  exact List.rel_append hfinished (.cons ⟨hstores, RowGroup.finalised_finaliseStats hstats⟩ .nil)

section

variable (h : Written rowGroupSize names writer chunks tail)
include h

theorem Written.writeRow (row : Row) :
    ∃ writer', writer.writeRow rowGroupSize row = some writer' ∧ ∃ chunks' tail',
      Written rowGroupSize names writer' chunks' tail' ∧
        chunks'.flatten ++ tail' = chunks.flatten ++ tail ++ [row] := by
  have hlisted : ∀ name ∈ writer.columnNames, (writer.currentGroup.columns.get name).isSome := by
    intro name hname
    rw [h.current.columns, if_pos (h.columnNames ▸ hname)]
    rfl
  obtain ⟨columns, hpush, hcolumns⟩ := pushRow_eq_some row hlisted
  rw [ParquetLiteWriter.writeRow, hpush, Option.map_some]
  refine ⟨_, rfl, ?_⟩
  have hstores : RowGroup.Stores ⟨columns, writer.currentGroup.stats, writer.currentGroup.size + 1⟩ names
      (tail ++ [row]) := by
    constructor
    · rw [List.length_append, ← h.current.size]
      rfl
    · intro col
      rw [hcolumns, h.current.columns, h.columnNames]
      split
      · rw [Option.map_some, columnOf, columnOf, List.flatMap_append, List.flatMap_singleton]
      · rfl
  have hsize := h.current.size
  have hroom := h.room
  have hempty : Written rowGroupSize names (.new names) [] [] := written_new
  by_cases hfull : rowGroupSize ≤ writer.currentGroup.size + 1
  · refine ⟨chunks ++ [tail ++ [row]], [], ?_, by simp⟩
    rw [if_pos hfull]
    refine ⟨h.columnNames, ?_, rfl, ?_, ?_, ?_⟩
    · show (RowGroup.new writer.columnNames).Stores names []
      rw [h.columnNames]
      exact RowGroup.stores_new names
    · exact @finished_flush names ⟨writer.columnNames, ⟨columns, writer.currentGroup.stats, _⟩, writer.finishedGroups⟩
        chunks (tail ++ [row]) h.finished hstores h.stats
    · intro chunk hchunk
      rcases List.mem_append.1 hchunk with hold | hnew
      · exact h.full chunk hold
      · rw [List.mem_singleton.1 hnew, List.length_append, List.length_singleton]
        omega
    · exact hempty.room
  · refine ⟨chunks, tail ++ [row], ?_, by simp⟩
    rw [if_neg hfull]
    refine ⟨h.columnNames, hstores, h.stats, h.finished, h.full, ?_⟩
    rw [List.length_append, List.length_singleton]
    omega

theorem Written.writeRows (rows : List Row) :
    ∃ writer', rows.foldlM (ParquetLiteWriter.writeRow rowGroupSize) writer = some writer' ∧ ∃ chunks' tail',
      Written rowGroupSize names writer' chunks' tail' ∧ chunks'.flatten ++ tail' = chunks.flatten ++ tail ++ rows := by
  induction rows generalizing writer chunks tail with
  | nil => exact ⟨writer, rfl, chunks, tail, h, (List.append_nil _).symm⟩
  | cons row rows ih =>
    obtain ⟨next, hnext, chunks₁, tail₁, h₁, hrows₁⟩ := h.writeRow row
    obtain ⟨writer', hrun, chunks', tail', h', hrows'⟩ := ih h₁
    refine ⟨writer', ?_, chunks', tail', h', ?_⟩
    · rw [List.foldlM_cons, hnext]
      exact hrun
    · rw [hrows', hrows₁, List.append_assoc, List.singleton_append]

end

end Writer

/-- The writer splits the rows into groups: in order, every group but the last one full, each with its rows and
their statistics. -/
theorem writeRows_spec (rowGroupSize : Nat) (names : List String) (rows : List Row) :
    ∃ groups chunks, writeRows rowGroupSize names rows = some groups ∧ chunks.flatten = rows ∧
      List.Forall₂ (fun (group : RowGroup) chunk => group.Stores names chunk ∧ group.Finalised) groups chunks ∧
      (∀ chunk ∈ chunks.dropLast, chunk.length = max 1 rowGroupSize) ∧
      ∀ chunk ∈ chunks, 0 < chunk.length ∧ chunk.length ≤ max 1 rowGroupSize := by
  have hnew : Written rowGroupSize names (.new names) [] [] := written_new
  obtain ⟨writer, hrun, chunks, tail, h, hrows⟩ := hnew.writeRows rows
  have hfull : ∀ chunk ∈ chunks, 0 < chunk.length ∧ chunk.length ≤ max 1 rowGroupSize := by
    intro chunk hchunk
    have hlength := h.full chunk hchunk
    omega
  rw [writeRows, hrun, Option.map_some, ParquetLiteWriter.finish, h.current.size]
  by_cases htail : 0 < tail.length
  · rw [if_pos htail]
    refine ⟨_, chunks ++ [tail], rfl, ?_, finished_flush h.finished h.current h.stats, ?_, ?_⟩
    · simpa using hrows
    · rw [List.dropLast_concat]
      exact h.full
    · intro chunk hchunk
      rcases List.mem_append.1 hchunk with hold | hnew
      · exact hfull chunk hold
      · rw [List.mem_singleton.1 hnew]
        exact ⟨htail, Nat.le_of_lt h.room⟩
  · rw [if_neg htail]
    have hnil : tail = [] := List.length_eq_zero_iff.1 (Nat.eq_zero_of_not_pos htail)
    refine ⟨_, chunks, rfl, ?_, h.finished, fun chunk hchunk => h.full chunk (List.dropLast_subset _ hchunk), hfull⟩
    rw [hnil] at hrows
    simpa using hrows

/-! ### What a scan finds -/

/-- The two row tests compared. The test in a group is the one of the predicate, unless it compares a double: no
double is less than another there. -/
theorem evalPredInGroup_eq (group : RowGroup) (p : Predicate) (i : Nat) :
    evalPredInGroup group p i = (p.matches (cell group.columns · i) && !p.comparesFloat) := by
  induction p with
  | eq col expected =>
    show (match cell group.columns col i with
      | some actual => actual.eq expected
      | none => false) = ((cell group.columns col i).any (·.eq expected) && true)
    cases cell group.columns col i with
    | none => rfl
    | some actual => exact (Bool.and_true _).symm
  | lt col threshold =>
    show (match cell group.columns col i, threshold with
      | some (.int a), .int b => decide (a < b)
      | _, _ => false) =
        ((cell group.columns col i).any (·.less threshold) && !Predicate.comparesFloat (.lt col threshold))
    cases cell group.columns col i with
    | none => rfl
    | some actual =>
      cases threshold with
      | int b =>
        cases actual with
        | int a => exact (Bool.and_true _).symm
        | _ => rfl
      | float bits => cases actual <;> exact (Bool.and_false _).symm
      | _ => cases actual <;> rfl
  | and left right ihl ihr =>
    rw [evalPredInGroup, ihl, ihr, Predicate.matches, Predicate.comparesFloat, Bool.not_or, Bool.and_assoc,
      Bool.and_assoc, Bool.and_left_comm (!left.comparesFloat)]

theorem getElem?_flatMap_replicate {α β : Type} (f : α → β) {k : Nat} (hk : 0 < k) (l : List α) (i : Nat) :
    (l.flatMap fun a => List.replicate k (f a))[i]? = l[i / k]?.map f := by
  induction l generalizing i with
  | nil => rfl
  | cons a l ih =>
    rw [List.flatMap_cons]
    by_cases hi : i < k
    · rw [List.getElem?_append_left (by rwa [List.length_replicate]), Nat.div_eq_of_lt hi,
        List.getElem?_replicate, if_pos hi]
      rfl
    · have hle : k ≤ i := Nat.le_of_not_lt hi
      have hdiv : i / k = (i - k) / k + 1 := by
        rw [Nat.div_eq_sub_div hk hle]
      rw [List.getElem?_append_right (by rwa [List.length_replicate]), List.length_replicate, ih, hdiv]
      rfl

variable {rows : List Row}

/-- A cell of a group. The column of a name that is listed `k` times has at position `i` the value of row
`i / k`. -/
theorem RowGroup.Stores.cell_eq {group : RowGroup} (h : group.Stores names rows) (col : String) (i : Nat) :
    cell group.columns col i =
      if col ∈ names then rows[i / names.count col]?.map fun row => (row.get col).getD .null else none := by
  rw [cell, h.columns]
  by_cases hcol : col ∈ names
  · rw [if_pos hcol, if_pos hcol, Option.bind_some]
    exact getElem?_flatMap_replicate _ (List.count_pos_iff.2 hcol) rows i
  · rw [if_neg hcol, if_neg hcol]
    rfl

theorem RowGroup.Stores.cell_once {group : RowGroup} (h : group.Stores names rows) {col : String}
    (honce : names.count col ≤ 1) {i : Nat} {row : Row} (hrow : rows[i]? = some row) :
    cell group.columns col i = rowCell names row col := by
  rw [h.cell_eq, rowCell]
  by_cases hcol : col ∈ names
  · have hone : names.count col = 1 := Nat.le_antisymm honce (List.count_pos_iff.2 hcol)
    rw [if_pos hcol, if_pos hcol, hone, Nat.div_one, hrow, Option.map_some]
  · rw [if_neg hcol, if_neg hcol]

/-- What a scan tests: the predicate, and that it compares no double. -/
def scanTest (filter : Option Predicate) (cellOf : String → Option Value) : Bool :=
  filter.all fun p => p.matches cellOf && !p.comparesFloat

section Scan

variable {names projection : List String} {filter : Option Predicate}

theorem scanGroup_eq_answer {group : RowGroup} (hstores : group.Stores names rows)
    (hfinal : group.Finalised) (honce : ∀ col ∈ queryColumns projection filter, names.count col ≤ 1) :
    scanGroup projection filter group = answer (scanTest filter) names projection rows := by
  have hloop : ((List.range group.size).flatMap fun rowIdx =>
      if filter.all fun pred => evalPredInGroup group pred rowIdx then [project group.columns projection rowIdx]
      else []) = answer (scanTest filter) names projection rows := by
    rw [hstores.size]
    refine @flatMap_range_eq_answer _ names projection (queryColumns projection filter) rows _ _
      (fun col hcol i row hrow => hstores.cell_once (honce col hcol) hrow)
      (fun col hcol => List.mem_append_left _ hcol) ?_ ?_
    · intro i
      cases filter with
      | none => rfl
      | some p => exact evalPredInGroup_eq group p i
    · intro cellOf cellOf' hcells
      cases filter with
      | none => rfl
      | some p =>
        have hmatches := matches_congr fun col hcol => hcells col (List.mem_append_right _ hcol)
        show (p.matches cellOf && !p.comparesFloat) = (p.matches cellOf' && !p.comparesFloat)
        rw [hmatches]
  rw [scanGroup]
  split
  · exact hloop
  · next hpruned =>
      -- a pruned group has no row that passes, so that the loop would have given nothing
      cases filter with
      | none => exact absurd rfl hpruned
      | some p =>
        have hmay : group.maySatisfy p = false := Bool.eq_false_iff.2 hpruned
        rw [← hloop]
        refine (List.flatMap_eq_nil_iff.2 fun i _ => if_neg ?_).symm
        show ¬ evalPredInGroup group p i = true
        rw [evalPredInGroup_eq, RowGroup.matches_of_pruned hfinal hmay i]
        exact Bool.false_ne_true

theorem scan_eq_answer {groups : List RowGroup} {chunks : List (List Row)}
    (h : List.Forall₂ (fun (group : RowGroup) chunk => group.Stores names chunk ∧ group.Finalised) groups chunks)
    (honce : ∀ col ∈ queryColumns projection filter, names.count col ≤ 1) :
    scan groups projection filter = answer (scanTest filter) names projection chunks.flatten := by
  induction h with
  | nil => rfl
  | cons hgroup _ ih =>
    rw [scan, List.flatMap_cons, scanGroup_eq_answer hgroup.1 hgroup.2 honce, List.flatten_cons, answer, answer,
      List.flatMap_append]
    exact congrArg _ ih

end Scan

theorem answer_eq_nil {test : (String → Option Value) → Bool} {projection : List String} :
    answer test names projection rows = [] ↔ ∀ row ∈ rows, test (rowCell names row) = false := by
  rw [answer, List.flatMap_eq_nil_iff]
  refine forall₂_congr fun row _ => ?_
  cases test (rowCell names row) <;> simp

/-- **The scan answers as the store does**, and no pruned group has a row that satisfies the predicate, exactly when
the predicate compares no double or no row satisfies it. The columns that the query reads are listed once. -/
theorem scan_eq_select_iff (rowGroupSize : Nat) (names projection : List String) (filter : Option Predicate)
    (rows : List Row) (honce : ∀ col ∈ queryColumns projection filter, names.count col ≤ 1) :
    ∃ groups, writeRows rowGroupSize names rows = some groups ∧
      ((scan groups projection filter = (ColumnStore.ofRows names rows).select projection filter ∧
        ∀ p, filter = some p → ∀ group ∈ groups, group.maySatisfy p = false →
          ∀ i, ColumnStore.evalPredicate ⟨group.columns, group.size⟩ p i = false) ↔
      ∀ p, filter = some p → p.comparesFloat = true → ∀ row ∈ rows, p.matches (rowCell names row) = false) := by
  obtain ⟨groups, chunks, hwrite, hrows, hgroups, -, -⟩ := writeRows_spec rowGroupSize names rows
  have hpruned : ∀ p, filter = some p → ∀ group ∈ groups, group.maySatisfy p = false →
      ∀ i, ColumnStore.evalPredicate ⟨group.columns, group.size⟩ p i = false := by
    intro p _ group hgroup hmay i
    have hfinal := ((List.forall₂_and_left _ _).1 (hgroups.imp fun g c hgc => hgc.symm)).1 group hgroup
    rw [ColumnStore.evalPredicate_eq_matches]
    exact RowGroup.matches_of_pruned hfinal hmay i
  refine ⟨groups, hwrite, ?_⟩
  rw [and_iff_left hpruned, scan_eq_answer hgroups honce, hrows, ColumnStore.select_ofRows]
  cases filter with
  | none => exact iff_of_true rfl fun p hp => absurd hp (by simp)
  | some p =>
    have hscan : scanTest (some p) = fun cellOf => p.matches cellOf && !p.comparesFloat := rfl
    cases hfloat : p.comparesFloat with
    | false =>
      refine iff_of_true ?_ fun q hq hcompares => ?_
      · rw [hscan, hfloat]
        simp
      · cases hq
        exact absurd hcompares (by rw [hfloat]; exact Bool.false_ne_true)
    | true =>
      -- the scan finds no row at all
      have hnone : answer (scanTest (some p)) names projection rows = [] := by
        rw [answer_eq_nil, hscan, hfloat]
        simp
      rw [hnone, eq_comm, answer_eq_nil]
      constructor
      · intro h q hq _ row hrow
        cases hq
        exact h row hrow
      · exact fun h row hrow => h p rfl hfloat row hrow

/-- Three rows in groups of two: the second group is pruned, and the scan finds what the store finds. -/
theorem scan_eq_select_small :
    let rows : List Row := [1, 7, 9].map fun n => empty.insert "id" (.int n)
    ∃ groups, writeRows 2 ["id", "price"] rows = some groups ∧ groups.length = 2 ∧
      scan groups ["price", "id"] (some (.lt "id" (.int 8))) =
        (ColumnStore.ofRows ["id", "price"] rows).select ["price", "id"] (some (.lt "id" (.int 8))) := by
  intro rows
  have honce : ∀ col ∈ queryColumns ["price", "id"] (some (.lt "id" (.int 8))),
      ["id", "price"].count col ≤ 1 := by decide
  obtain ⟨groups, hwrite, hiff⟩ :=
    scan_eq_select_iff 2 ["id", "price"] ["price", "id"] (some (.lt "id" (.int 8))) rows honce
  have hlength : (writeRows 2 ["id", "price"] rows).map List.length = some 2 := by rfl
  rw [hwrite, Option.map_some, Option.some.injEq] at hlength
  refine ⟨groups, hwrite, hlength, (hiff.2 ?_).1⟩
  intro p hp hfloat
  cases hp
  exact absurd hfloat (by decide)

/-- Prices below 2 are asked for: the store finds the row with the price 1.5, the scan does not. -/
theorem float_below_threshold_not_found :
    let rows : List Row := [empty.insert "price" (.float 0x3FF8000000000000)]
    let cheap : Predicate := .lt "price" (.float 0x4000000000000000)
    ∃ groups, writeRows 65536 ["price"] rows = some groups ∧ scan groups ["price"] (some cheap) = [] ∧
      (ColumnStore.ofRows ["price"] rows).select ["price"] (some cheap) = [[.float 0x3FF8000000000000]] := by
  intro rows cheap
  have hwrite : ∃ groups, writeRows 65536 ["price"] rows = some groups := Option.isSome_iff_exists.1 (by rfl)
  obtain ⟨groups, hgroups⟩ := hwrite
  have hscan : (writeRows 65536 ["price"] rows).map (fun g => scan g ["price"] (some cheap)) = some [] := by
    rfl
  rw [hgroups, Option.map_some, Option.some.injEq] at hscan
  exact ⟨groups, hgroups, hscan, by rfl⟩

/-- A name that is listed twice is pushed twice for each row: the second row of the group shows the value of the first
one. -/
example : (writeRows 2 ["id", "id"] ([1, 2].map fun n => SortedMap.empty.insert "id" (.int n))).map
    (fun groups => scan groups ["id"] none) = some [[.int 1], [.int 1]] := by rfl

end SystemDesignLabs.ColumnarStorage

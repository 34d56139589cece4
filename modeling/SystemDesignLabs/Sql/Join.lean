import SystemDesignLabs.Sql.Operator

/-!
# The nested loop join

The right side is a list of rows. For each row of the left side the right side is scanned once, and the
operator returns at each match: it keeps the left row and the position after the match, and the next call
goes on from there. `yields` says that all matches of all left rows come out, left row by left row.
-/

namespace SystemDesignLabs.Sql

open Option (isSome_none isSome_some)

open Core

/-- Merge two rows; the columns of the right one win. -/
def mergeRows (left right : Row) : Row := left.insertAll right.entries

theorem get_mergeRows (left right : Row) (col : String) :
    (mergeRows left right).get col = (right.get col).or (left.get col) :=
  SortedMap.get_insertAll left right.sorted col

/-- The join condition as the operator checks it: equal values, where `NULL` is equal to `NULL`. -/
def joins (leftCol rightCol : String) (left right : Row) : Bool :=
  valueOrNull left leftCol = valueOrNull right rightCol

/-- The merged rows for one left row, in the order of the right side. -/
def matchesOf (leftCol rightCol : String) (rightRows : List Row) (left : Row) : List Row :=
  (rightRows.filter (joins leftCol rightCol left)).map (mergeRows left)

structure NestedLoopJoin (σ : Type) where
  left : σ
  rightRows : List Row
  leftCol : String
  rightCol : String
  currentLeft : Option Row
  rightPos : Nat

namespace NestedLoopJoin

variable {σ : Type} [Operator σ]

def new (left : σ) (rightRows : List Row) (leftCol rightCol : String) : NestedLoopJoin σ :=
  ⟨left, rightRows, leftCol, rightCol, none, 0⟩

/-- Scan the rows of the right side from a position on, up to the first match. -/
def scanRight (leftCol rightCol : String) (left : Row) : List Row → Nat → Option (Row × Nat)
  | [], _ => none
  | right :: rest, pos =>
    if joins leftCol rightCol left right then some (mergeRows left right, pos + 1)
    else scanRight leftCol rightCol left rest (pos + 1)

/-- The loop of `next`. Each round has a left row, kept from the call before or pulled now, and scans the
right side from the position that is kept; the first argument counts the rounds. -/
def pull : Nat → NestedLoopJoin σ → SqlResult (Option Row) × NestedLoopJoin σ
  | 0, j => (.ok none, j)
  | n + 1, j => match j.currentLeft with
    | some left =>
      match scanRight j.leftCol j.rightCol left (j.rightRows.drop j.rightPos) j.rightPos with
      | some (merged, pos) => (.ok (some merged), { j with rightPos := pos })
      | none => pull n { j with currentLeft := none, rightPos := j.rightRows.length }
    | none => match Operator.next j.left with
      | (.error e, s) => (.error e, { j with left := s })
      | (.ok none, s) => (.ok none, { j with left := s })
      | (.ok (some left), s) => pull n { j with left := s, currentLeft := some left, rightPos := 0 }

/-- A round without a match lowers this number. -/
def rounds (j : NestedLoopJoin σ) : Nat :=
  2 * Operator.budget j.left + (if j.currentLeft.isSome then 1 else 0)

def next (j : NestedLoopJoin σ) : SqlResult (Option Row) × NestedLoopJoin σ := pull (j.rounds + 1) j

/-- The rows still to come: what is left of the right side for the current row, and the whole right side
for each row of the left side. -/
def budget (j : NestedLoopJoin σ) : Nat :=
  (if j.currentLeft.isSome then j.rightRows.length - j.rightPos else 0) +
    Operator.budget j.left * j.rightRows.length

theorem scanRight_pos {leftCol rightCol : String} {left merged : Row} {rows : List Row}
    {start pos : Nat} (h : scanRight leftCol rightCol left rows start = some (merged, pos)) :
    start < pos ∧ pos ≤ start + rows.length := by
  induction rows generalizing start with
  | nil => exact absurd h (by simp [scanRight])
  | cons right rest ih =>
    rw [scanRight] at h
    rw [List.length_cons]
    split at h
    · cases h
      omega
    · have := ih h
      omega

theorem pull_budget {n : Nat} {j j' : NestedLoopJoin σ} {r : Row}
    (h : pull n j = (.ok (some r), j')) : j'.budget < j.budget := by
  induction n generalizing j with
  | zero => exact absurd (congrArg Prod.fst h) (by simp [pull])
  | succ n ih =>
    rw [pull] at h
    split at h
    case h_1 left hcur =>
      split at h
      case h_1 merged pos hscan =>
        cases h
        have hpos := scanRight_pos hscan
        rw [List.length_drop] at hpos
        simp only [budget, hcur, isSome_some, if_true]
        omega
      case h_2 =>
        refine lt_of_lt_of_le (ih h) ?_
        simp only [budget, hcur, isSome_some, isSome_none, if_true]
        simp
    case h_2 hcur =>
      split at h
      case h_1 => exact absurd (congrArg Prod.fst h) (by simp)
      case h_2 => exact absurd (congrArg Prod.fst h) (by simp)
      case h_3 left s hnext =>
        refine lt_of_lt_of_le (ih h) ?_
        have hlt := Operator.budget_next hnext
        have hmul := Nat.mul_le_mul_right j.rightRows.length hlt
        rw [Nat.succ_mul] at hmul
        simp only [budget, hcur, isSome_some, isSome_none, if_true]
        simp only [Bool.false_eq_true, if_false]
        omega

theorem pull_eq {n m : Nat} {j : NestedLoopJoin σ} (hn : j.rounds < n) (hm : j.rounds < m) : pull n j = pull m j := by
  induction n generalizing j m with
  | zero => exact absurd hn (Nat.not_lt_zero _)
  | succ n ih =>
    obtain ⟨m, rfl⟩ := Nat.exists_eq_add_one_of_ne_zero (Nat.ne_zero_of_lt hm)
    unfold pull
    split
    case h_1 left hcur =>
      simp only [rounds, hcur, isSome_some, if_true] at hn hm
      split
      · rfl
      · apply ih
        · simp only [rounds, isSome_none, Bool.false_eq_true, if_false]
          omega
        · simp only [rounds, isSome_none, Bool.false_eq_true, if_false]
          omega
    case h_2 hcur =>
      simp only [rounds, hcur, isSome_none, Bool.false_eq_true, if_false] at hn hm
      split
      · rfl
      · rfl
      · rename_i left s hnext
        have hlt := Operator.budget_next hnext
        apply ih
        · simp only [rounds, isSome_some, if_true]
          omega
        · simp only [rounds, isSome_some, if_true]
          omega

instance : Operator (NestedLoopJoin σ) where
  open' j := { j with left := Operator.open' j.left, currentLeft := none, rightPos := 0 }
  next := next
  budget := budget
  budget_next := pull_budget

theorem next_of_round {j k : NestedLoopJoin σ} (h : ∀ n, pull (n + 1) j = pull n k)
    (hk : k.rounds < j.rounds) : Operator.next j = Operator.next k := by
  show pull (j.rounds + 1) j = pull (k.rounds + 1) k
  rw [h]
  exact pull_eq hk (Nat.lt_succ_self _)

theorem yields_current {j : NestedLoopJoin σ} {left : Row} {p : Pulls} (hcur : j.currentLeft = some left)
    (hrest : Yields { j with currentLeft := none, rightPos := j.rightRows.length } p) :
    Yields j ⟨matchesOf j.leftCol j.rightCol (j.rightRows.drop j.rightPos) left ++ p.rows, p.err⟩ := by
  obtain ⟨s, rightRows, leftCol, rightCol, cur, pos⟩ := j
  simp only at hcur hrest
  subst hcur
  show Yields _ ⟨matchesOf leftCol rightCol (rightRows.drop pos) left ++ p.rows, p.err⟩
  -- a scan that starts at `start` sees the rows from `start` on
  suffices hscan : ∀ (rows : List Row) (start : Nat), rightRows.drop start = rows →
      ∀ pos, (∀ n, pull (n + 1) (NestedLoopJoin.mk s rightRows leftCol rightCol (some left) pos) =
        pull (n + 1) (NestedLoopJoin.mk s rightRows leftCol rightCol (some left) start)) →
      Yields (NestedLoopJoin.mk s rightRows leftCol rightCol (some left) pos)
        ⟨matchesOf leftCol rightCol rows left ++ p.rows, p.err⟩ from
    hscan _ pos rfl pos fun _ => rfl
  intro rows
  induction rows with
  | nil =>
    intro start hdrop pos hpull
    apply Yields.congr _ hrest
    apply next_of_round
    · intro n
      rw [hpull, pull]
      simp only [hdrop, scanRight]
    · simp only [rounds, isSome_some, if_true, isSome_none, Bool.false_eq_true, if_false]
      omega
  | cons right rest ih =>
    intro start hdrop pos hpull
    have hrest' : rightRows.drop (start + 1) = rest := by
      rw [← List.drop_drop, hdrop]
      rfl
    rw [matchesOf] at ih ⊢
    by_cases hjoin : joins leftCol rightCol left right = true
    · rw [List.filter_cons_of_pos hjoin, List.map_cons]
      apply Yields.row (t := NestedLoopJoin.mk s rightRows leftCol rightCol (some left) (start + 1))
        (p := ⟨_ ++ p.rows, p.err⟩) _ (ih (start + 1) hrest' (start + 1) fun _ => rfl)
      show pull _ _ = _
      rw [hpull, pull]
      simp only [hdrop, scanRight, hjoin, if_true]
    · rw [List.filter_cons_of_neg hjoin]
      apply ih (start + 1) hrest' pos
      intro n
      rw [hpull, pull, pull]
      simp only [hdrop, hrest', scanRight, hjoin, Bool.false_eq_true, if_false]

/-- The join yields the matches of the left rows, left row by left row. -/
theorem yields {s : σ} {p : Pulls} (h : Yields s p) (rightRows : List Row) (leftCol rightCol : String) (pos : Nat) :
    Yields (NestedLoopJoin.mk s rightRows leftCol rightCol none pos)
      ⟨p.rows.flatMap (matchesOf leftCol rightCol rightRows), p.err⟩ := by
  induction h generalizing pos with
  | @done s t hnext =>
    apply Yields.done (t := NestedLoopJoin.mk t rightRows leftCol rightCol none pos)
    show pull _ _ = _
    simp only [pull, hnext]
  | @fail s t e hnext =>
    apply Yields.fail (t := NestedLoopJoin.mk t rightRows leftCol rightCol none pos)
    show pull _ _ = _
    simp only [pull, hnext]
  | @row s t r p hnext hy ih =>
    have hlt := Operator.budget_next hnext
    have hcurrent := yields_current
      (j := NestedLoopJoin.mk t rightRows leftCol rightCol (some r) 0) rfl (ih _)
    apply Yields.congr _ hcurrent
    apply next_of_round
    · intro n
      rw [pull]
      simp only [hnext]
    · simp only [rounds, isSome_some, if_true, isSome_none, Bool.false_eq_true, if_false]
      omega

end NestedLoopJoin

/-!
## Sort and limit

The sort pulls its whole input at the first call and then returns the rows in order. The limit first
skips rows, then passes rows on until the limit is reached; it does not pull the row after the last one,
so that an error which the input would return there does not come out.
-/

open Operator Prod

variable {σ : Type} [Operator σ]

/-! #### SortOp -/

/-- The order of the sort: by the value of one column, up or down. -/
def sortLe (orderBy : OrderBy) (a b : Row) : Bool :=
  let va := valueOrNull a orderBy.column
  let vb := valueOrNull b orderBy.column
  if orderBy.ascending then va ≤ vb else vb ≤ va

/-- The stable sort of the buffer. -/
def sortRows (orderBy : OrderBy) (rows : List Row) : List Row := rows.mergeSort (sortLe orderBy)

/-- The operator `Sort`, whose name is taken in Lean. -/
structure SortOp (σ : Type) where
  input : σ
  orderBy : OrderBy
  buffer : List Row
  pos : Nat
  ready : Bool

namespace SortOp

def new (input : σ) (orderBy : OrderBy) : SortOp σ := ⟨input, orderBy, [], 0, false⟩

/-- Pull the input into the buffer; the first argument is above the budget of the input. -/
def materialize : Nat → SortOp σ → SqlResult PUnit × SortOp σ
  | 0, s => (.ok ⟨⟩, s)
  | n + 1, s => match Operator.next s.input with
    | (.error e, t) => (.error e, { s with input := t })
    | (.ok none, t) => (.ok ⟨⟩, { s with input := t })
    | (.ok (some row), t) => materialize n { s with input := t, buffer := s.buffer ++ [row] }

/-- The next row of the sorted buffer. -/
def emit (s : SortOp σ) : SqlResult (Option Row) × SortOp σ :=
  match s.buffer[s.pos]? with
  | some row => (.ok (some row), { s with pos := s.pos + 1 })
  | none => (.ok none, s)

def next (s : SortOp σ) : SqlResult (Option Row) × SortOp σ :=
  if s.ready then emit s
  else match materialize (Operator.budget s.input + 1) s with
    | (.error e, t) => (.error e, t)
    | (.ok _, t) => emit { t with buffer := sortRows t.orderBy t.buffer, ready := true }

def budget (s : SortOp σ) : Nat :=
  if s.ready then s.buffer.length - s.pos else s.buffer.length + Operator.budget s.input

theorem emit_budget {s s' : SortOp σ} {r : Row} (h : emit s = (.ok (some r), s')) :
    s'.ready = s.ready ∧ s'.buffer = s.buffer ∧ s'.pos = s.pos + 1 ∧ s.pos < s.buffer.length := by
  rw [emit] at h
  split at h
  case h_1 row hrow =>
    cases h
    exact ⟨rfl, rfl, rfl, (List.getElem?_eq_some_iff.1 hrow).1⟩
  case h_2 => exact absurd (congrArg fst h) (by simp)

theorem materialize_length {n : Nat} {s t : SortOp σ} {u : PUnit} (h : materialize n s = (.ok u, t)) :
    t.buffer.length ≤ s.buffer.length + Operator.budget s.input := by
  induction n generalizing s with
  | zero =>
    cases h
    exact Nat.le_add_right _ _
  | succ n ih =>
    rw [materialize] at h
    split at h
    case h_1 => exact absurd (congrArg fst h) (by simp)
    case h_2 =>
      cases h
      exact Nat.le_add_right _ _
    case h_3 row t' hnext =>
      have hlen := ih h
      have hlt := budget_next hnext
      simp only [List.length_append, List.length_singleton] at hlen
      omega

theorem next_budget {s s' : SortOp σ} {r : Row} (h : next s = (.ok (some r), s')) : s'.budget < s.budget := by
  rw [next] at h
  split at h
  case isTrue hready =>
    obtain ⟨hready', hbuffer, hpos, hlt⟩ := emit_budget h
    simp only [budget, hready', hready, if_true, hbuffer, hpos]
    omega
  case isFalse hready =>
    split at h
    · exact absurd (congrArg fst h) (by simp)
    · rename_i u t hmat
      obtain ⟨hready', hbuffer, hpos, hlt⟩ := emit_budget h
      have hlen := materialize_length hmat
      have hsort : (sortRows t.orderBy t.buffer).length = t.buffer.length := List.length_mergeSort _
      simp only at hready' hbuffer hpos hlt
      simp only [budget, hready', if_true, hbuffer, hpos, hready, Bool.false_eq_true, if_false]
      omega

instance : Operator (SortOp σ) where
  open' s := { s with input := Operator.open' s.input, buffer := [], pos := 0, ready := false }
  next := next
  budget := budget
  budget_next := next_budget

theorem materialize_yields {s : σ} {p : Pulls} (h : Yields s p) (orderBy : OrderBy)
    (buffer : List Row) (n : Nat) (hn : Operator.budget s < n) :
    ∃ t, materialize n (SortOp.mk s orderBy buffer 0 false) = match p.err with
      | some e => (.error e, SortOp.mk t orderBy (buffer ++ p.rows) 0 false)
      | none => (.ok ⟨⟩, SortOp.mk t orderBy (buffer ++ p.rows) 0 false) := by
  induction h generalizing buffer n with
  | @done s t hnext =>
    obtain ⟨n, rfl⟩ := Nat.exists_eq_add_one_of_ne_zero (Nat.ne_zero_of_lt hn)
    refine ⟨t, ?_⟩
    simp only [materialize, hnext, List.append_nil]
  | @fail s t e hnext =>
    obtain ⟨n, rfl⟩ := Nat.exists_eq_add_one_of_ne_zero (Nat.ne_zero_of_lt hn)
    refine ⟨t, ?_⟩
    simp only [materialize, hnext, List.append_nil]
  | @row s t r p hnext hy ih =>
    obtain ⟨n, rfl⟩ := Nat.exists_eq_add_one_of_ne_zero (Nat.ne_zero_of_lt hn)
    have hlt := budget_next hnext
    obtain ⟨u, hu⟩ := ih (buffer ++ [r]) n (by omega)
    refine ⟨u, ?_⟩
    rw [materialize]
    simp only [hnext, hu, Pulls.cons, List.append_assoc, List.singleton_append]

theorem yields_ready (input : σ) (orderBy : OrderBy) (buffer : List Row) (pos : Nat) :
    Yields (SortOp.mk input orderBy buffer pos true) ⟨buffer.drop pos, none⟩ := by
  induction hn : buffer.length - pos generalizing pos with
  | zero =>
    have hle : buffer.length ≤ pos := by omega
    rw [List.drop_eq_nil_of_le hle]
    apply Yields.done (t := SortOp.mk input orderBy buffer pos true)
    show next _ = _
    simp only [next, emit, if_true, List.getElem?_eq_none hle]
  | succ n ih =>
    have hlt : pos < buffer.length := by omega
    rw [List.drop_eq_getElem_cons hlt]
    apply Yields.row (t := SortOp.mk input orderBy buffer (pos + 1) true)
      (p := ⟨buffer.drop (pos + 1), none⟩) _ (ih (pos + 1) (by omega))
    show next _ = _
    simp only [next, emit, if_true, List.getElem?_eq_getElem hlt]

/-- The sort yields its input in order, or the error of its input and no row. -/
theorem yields {s : σ} {p : Pulls} (h : Yields s p) (orderBy : OrderBy) : Yields (SortOp.new s orderBy)
      (match p.err with | some e => ⟨[], some e⟩ | none => ⟨sortRows orderBy p.rows, none⟩) := by
  obtain ⟨t, ht⟩ := materialize_yields h orderBy [] _ (Nat.lt_succ_self _)
  rw [List.nil_append] at ht
  cases herr : p.err with
  | some e =>
    simp only [herr] at ht
    apply Yields.fail (t := SortOp.mk t orderBy p.rows 0 false)
    show next _ = _
    simp only [next, new, Bool.false_eq_true, if_false, ht]
  | none =>
    simp only [herr] at ht
    apply Yields.congr _ (yields_ready t orderBy (sortRows orderBy p.rows) 0)
    show next _ = next _
    simp only [next, new, Bool.false_eq_true, if_false, if_true, ht]

end SortOp

/-! #### Limit and offset -/

namespace Pulls

/-- At most so many rows; the row after the last one is not pulled. -/
def limited : Option Nat → List Row → Option SqlError → Pulls
  | some 0, _, _ => ⟨[], none⟩
  | _, [], err => ⟨[], err⟩
  | some (n + 1), r :: rows, err => (limited (some n) rows err).cons r
  | none, r :: rows, err => (limited none rows err).cons r

/-- Leave out the first rows, then limit. -/
def skipLimit (limit : Option Nat) : Nat → List Row → Option SqlError → Pulls
  | 0, rows, err => limited limit rows err
  | _ + 1, [], err => ⟨[], err⟩
  | n + 1, _ :: rows, err => skipLimit limit n rows err

end Pulls

structure LimitOffset (σ : Type) where
  input : σ
  limit : Option Nat
  offset : Nat
  emitted : Nat
  skipped : Nat

namespace LimitOffset

def new (input : σ) (limit : Option Nat) (offset : Nat) : LimitOffset σ :=
  ⟨input, limit, offset, 0, 0⟩

/-- The limit is reached. -/
def reached (limit : Option Nat) (emitted : Nat) : Bool := limit.any fun lim => lim ≤ emitted

/-- The row to return after the skipped ones. -/
def emit (l : LimitOffset σ) : SqlResult (Option Row) × LimitOffset σ :=
  if reached l.limit l.emitted then (.ok none, l)
  else match Operator.next l.input with
    | (.error e, s) => (.error e, { l with input := s })
    | (.ok none, s) => (.ok none, { l with input := s })
    | (.ok (some row), s) => (.ok (some row), { l with input := s, emitted := l.emitted + 1 })

/-- The first argument is the number of rows that are still to be skipped. -/
def pull : Nat → LimitOffset σ → SqlResult (Option Row) × LimitOffset σ
  | 0, l => emit l
  | n + 1, l => match Operator.next l.input with
    | (.error e, s) => (.error e, { l with input := s })
    | (.ok none, s) => (.ok none, { l with input := s })
    | (.ok (some _), s) => pull n { l with input := s, skipped := l.skipped + 1 }

def next (l : LimitOffset σ) : SqlResult (Option Row) × LimitOffset σ :=
  pull (l.offset - l.skipped) l

theorem pull_budget {n : Nat} {l l' : LimitOffset σ} {r : Row} (h : pull n l = (.ok (some r), l')) :
    Operator.budget l'.input < Operator.budget l.input := by
  induction n generalizing l with
  | zero =>
    rw [pull, emit] at h
    split at h
    · exact absurd (congrArg fst h) (by simp)
    · split at h
      · exact absurd (congrArg fst h) (by simp)
      · exact absurd (congrArg fst h) (by simp)
      · rename_i row s hnext
        cases h
        exact budget_next hnext
  | succ n ih =>
    rw [pull] at h
    split at h
    case h_1 => exact absurd (congrArg fst h) (by simp)
    case h_2 => exact absurd (congrArg fst h) (by simp)
    case h_3 row s hnext => exact lt_trans (ih h) (budget_next hnext)

instance : Operator (LimitOffset σ) where
  open' l := { l with input := Operator.open' l.input, emitted := 0, skipped := 0 }
  next := next
  budget l := Operator.budget l.input
  budget_next := pull_budget

variable {limit : Option Nat} {emitted : Nat}

theorem limited_of_reached (h : reached limit emitted = true) (rows : List Row) (err : Option SqlError) :
    Pulls.limited (limit.map (· - emitted)) rows err = ⟨[], none⟩ := by
  cases limit with
  | none => exact absurd h (by simp [reached])
  | some lim =>
    have hle : lim ≤ emitted := by simpa [reached] using h
    rw [Option.map_some, Nat.sub_eq_zero_of_le hle]
    cases rows <;> rfl

theorem limited_nil (h : reached limit emitted = false) (err : Option SqlError) :
    Pulls.limited (limit.map (· - emitted)) [] err = ⟨[], err⟩ := by
  cases limit with
  | none => rfl
  | some lim =>
    have hlt : emitted < lim := by simpa [reached] using h
    obtain ⟨n, hn⟩ := Nat.exists_eq_add_one_of_ne_zero (Nat.sub_ne_zero_of_lt hlt)
    rw [Option.map_some, hn]
    rfl

theorem limited_cons (h : reached limit emitted = false) (r : Row) (rows : List Row) (err : Option SqlError) :
    Pulls.limited (limit.map (· - emitted)) (r :: rows) err =
      (Pulls.limited (limit.map (· - (emitted + 1))) rows err).cons r := by
  cases limit with
  | none => rfl
  | some lim =>
    have hlt : emitted < lim := by simpa [reached] using h
    obtain ⟨n, hn⟩ := Nat.exists_eq_add_one_of_ne_zero (Nat.sub_ne_zero_of_lt hlt)
    have hn' : lim - (emitted + 1) = n := by omega
    rw [Option.map_some, Option.map_some, hn, hn']
    rfl

theorem yields_skipped {s : σ} {p : Pulls} (h : Yields s p) (limit : Option Nat)
    {offset skipped : Nat} (hskip : offset ≤ skipped) (emitted : Nat) :
    Yields (LimitOffset.mk s limit offset emitted skipped) (Pulls.limited (limit.map (· - emitted)) p.rows p.err) := by
  have hnext : ∀ (s : σ) (emitted : Nat), Operator.next (LimitOffset.mk s limit offset emitted skipped) =
      emit (LimitOffset.mk s limit offset emitted skipped) := by
    intro s emitted
    show pull (offset - skipped) _ = _
    rw [Nat.sub_eq_zero_of_le hskip]
    rfl
  induction h generalizing emitted with
  | @done s t hinput =>
    cases hreach : reached limit emitted with
    | true =>
      rw [limited_of_reached hreach]
      apply Yields.done (t := LimitOffset.mk s limit offset emitted skipped)
      rw [hnext, emit, if_pos hreach]
    | false =>
      rw [limited_nil hreach]
      apply Yields.done (t := LimitOffset.mk t limit offset emitted skipped)
      rw [hnext, emit, if_neg (Bool.eq_false_iff.1 hreach)]
      simp only [hinput]
  | @fail s t e hinput =>
    cases hreach : reached limit emitted with
    | true =>
      rw [limited_of_reached hreach]
      apply Yields.done (t := LimitOffset.mk s limit offset emitted skipped)
      rw [hnext, emit, if_pos hreach]
    | false =>
      rw [limited_nil hreach]
      apply Yields.fail (t := LimitOffset.mk t limit offset emitted skipped)
      rw [hnext, emit, if_neg (Bool.eq_false_iff.1 hreach)]
      simp only [hinput]
  | @row s t r p hinput hy ih =>
    cases hreach : reached limit emitted with
    | true =>
      rw [limited_of_reached hreach]
      apply Yields.done (t := LimitOffset.mk s limit offset emitted skipped)
      rw [hnext, emit, if_pos hreach]
    | false =>
      show Yields _ (Pulls.limited _ (r :: p.rows) p.err)
      rw [limited_cons hreach]
      apply Yields.row (t := LimitOffset.mk t limit offset (emitted + 1) skipped) _
        (ih (emitted + 1))
      rw [hnext, emit, if_neg (Bool.eq_false_iff.1 hreach)]
      simp only [hinput]

/-- The limit yields the rows after the offset, up to the limit. -/
theorem yields {s : σ} {p : Pulls} (h : Yields s p) (limit : Option Nat) (offset : Nat) :
    Yields (LimitOffset.new s limit offset) (Pulls.skipLimit limit offset p.rows p.err) := by
  -- with `skipped` rows behind and `n` rows still to be skipped
  suffices hfrom : ∀ n (skipped : Nat), offset - skipped = n →
      Yields (LimitOffset.mk s limit offset 0 skipped) (Pulls.skipLimit limit n p.rows p.err) from
    hfrom offset 0 rfl
  intro n
  induction n generalizing s p with
  | zero =>
    intro skipped hn
    have hlimit : limit.map (· - 0) = limit := by cases limit <;> rfl
    have hskipped := yields_skipped h limit (Nat.le_of_sub_eq_zero hn) 0
    rwa [hlimit] at hskipped
  | succ n ih =>
    intro skipped hn
    cases h with
    | @done _ t hinput =>
      apply Yields.done (t := LimitOffset.mk t limit offset 0 skipped)
      show pull (offset - skipped) _ = _
      rw [hn, pull]
      simp only [hinput]
    | @fail _ t e hinput =>
      apply Yields.fail (t := LimitOffset.mk t limit offset 0 skipped)
      show pull (offset - skipped) _ = _
      rw [hn, pull]
      simp only [hinput]
    | @row _ t r p hinput hy =>
      have hn' : offset - (skipped + 1) = n := by omega
      apply Yields.congr _ (ih hy (skipped + 1) hn')
      show pull (offset - skipped) _ = pull (offset - (skipped + 1)) _
      rw [hn, hn', pull]
      simp only [hinput]

end LimitOffset

end SystemDesignLabs.Sql

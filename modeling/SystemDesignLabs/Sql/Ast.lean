import SystemDesignLabs.Core.SortedMap

/-!
# SQL values and their text

A value is an integer of 64 bits, a text, a truth value or `NULL`. The log keeps rows as text: `display`
writes a value, `parseValueFromStr` reads it back at the type of its column. A value survives this
(`parse_display_iff`) when it has the type of the column, or when it is `NULL` and the column is not of
type `TEXT`: a `NULL` is written as the four letters `NULL`, which are themselves a text.
-/

namespace SystemDesignLabs.Sql

/-- A single SQL value. -/
inductive Value where
  | int (n : Int64)
  | text (s : String)
  | bool (b : Bool)
  | null
  deriving DecidableEq, Repr

/-- Supported column types. -/
inductive ColType where
  | int
  | text
  | bool
  deriving DecidableEq, Repr

namespace Value

def typeName : Value → String
  | int _ => "INT"
  | text _ => "TEXT"
  | bool _ => "BOOL"
  | null => "NULL"

def isTruthy : Value → Bool
  | bool b => b
  | int n => n != 0
  | text s => !s.isEmpty
  | null => false

/-- The value as text: a decimal number, the text itself, `true` or `false`, or `NULL`. -/
def display : Value → String
  | int n => n.toInt.repr
  | text s => s
  | bool b => if b then "true" else "false"
  | null => "NULL"

/-- The position of a value in the derived order: first by the constructor, then by its argument. -/
def rank : Value → ℤ ⊕ₗ (String ⊕ₗ (Bool ⊕ₗ PUnit.{1}))
  | int n => toLex (.inl n.toInt)
  | text s => toLex (.inr (toLex (.inl s)))
  | bool b => toLex (.inr (toLex (.inr (toLex (.inl b)))))
  | null => toLex (.inr (toLex (.inr (toLex (.inr ⟨⟩)))))

theorem rank_injective : Function.Injective rank := by
  intro v w h
  cases v <;> cases w <;> simp only [rank, EmbeddingLike.apply_eq_iff_eq, Sum.inl.injEq,
    Sum.inr.injEq, reduceCtorEq, Int64.toInt_inj] at h
  all_goals first | rw [h] | rfl

instance : LinearOrder Value := LinearOrder.lift' rank rank_injective

end Value

namespace ColType

/-- Unicode upper case, as far as an answer made of ASCII letters can tell: the letters listed are the
ones outside ASCII whose upper case is made of ASCII letters. -/
def toUppercase (s : String) : List Char :=
  s.toList.flatMap fun c => match c with
    | 'ı' => ['I']
    | 'ſ' => ['S']
    | 'ß' => ['S', 'S']
    | 'ﬀ' => ['F', 'F']
    | 'ﬁ' => ['F', 'I']
    | 'ﬂ' => ['F', 'L']
    | 'ﬃ' => ['F', 'F', 'I']
    | 'ﬄ' => ['F', 'F', 'L']
    | 'ﬅ' => ['S', 'T']
    | 'ﬆ' => ['S', 'T']
    | c => [c.toUpper]

def fromStr (s : String) : Option ColType :=
  let upper := String.ofList (toUppercase s)
  if upper = "INT" ∨ upper = "INTEGER" ∨ upper = "BIGINT" then some .int
  else if upper = "TEXT" ∨ upper = "VARCHAR" ∨ upper = "STRING" then some .text
  else if upper = "BOOL" ∨ upper = "BOOLEAN" then some .bool
  else none

/-- The name of the constructor, under which a type is logged. -/
def debug : ColType → String
  | int => "Int"
  | text => "Text"
  | bool => "Bool"

@[simp] theorem fromStr_debug (ty : ColType) : fromStr ty.debug = some ty := by
  cases ty <;> rfl

end ColType

/-! ### Text to value -/

/-- The value of a nonempty string of decimal digits. -/
def parseDigits (cs : List Char) : Option Nat :=
  if cs ≠ [] ∧ cs.all Char.isDigit then some (Nat.ofDigitChars 10 cs 0) else none

/-- `n` as an integer of 64 bits, when it is in range. -/
def inRange (n : Int) : Option Int64 :=
  if -2 ^ 63 ≤ n ∧ n < 2 ^ 63 then some (Int64.ofInt n) else none

/-- `str::parse::<i64>`: an optional sign, then digits, in the range of the type. -/
def parseI64 (s : String) : Option Int64 :=
  match s.toList with
  | '-' :: cs => (parseDigits cs).bind fun n => inRange (-n)
  | '+' :: cs => (parseDigits cs).bind fun n => inRange n
  | cs => (parseDigits cs).bind fun n => inRange n

def parseValueFromStr (s : String) : ColType → Value
  | .int => match parseI64 s with
    | some n => .int n
    | none => .null
  | .bool => if s = "true" then .bool true else if s = "false" then .bool false else .null
  | .text => .text s

theorem parseDigits_toDigits (n : Nat) : parseDigits (Nat.toDigits 10 n) = some n := by
  rw [parseDigits]
  have hdigits : (Nat.toDigits 10 n).all Char.isDigit = true :=
    List.all_eq_true.2 fun c hc => Nat.isDigit_of_mem_toDigits (by decide) (by decide) hc
  rw [if_pos ⟨Nat.toDigits_ne_nil, hdigits⟩, Nat.ofDigitChars_ten_toDigits]

theorem inRange_toInt (n : Int64) : inRange n.toInt = some n := by
  rw [inRange]
  rw [if_pos ⟨Int64.le_toInt n, Int64.toInt_lt n⟩, Int64.ofInt_toInt]

/-- Reading back what was written for an integer. -/
theorem parseI64_repr (n : Int64) : parseI64 n.toInt.repr = some n := by
  have hrange := inRange_toInt n
  cases hn : n.toInt with
  | ofNat m =>
    rw [hn] at hrange
    have hdigits : (Int.ofNat m).repr.toList = Nat.toDigits 10 m := Nat.toList_repr
    rw [parseI64]
    rw [hdigits]
    -- a digit is not a sign
    have hdigit : ∀ c ∈ Nat.toDigits 10 m, c.isDigit := fun c hc =>
      Nat.isDigit_of_mem_toDigits (by decide) (by decide) hc
    split
    case h_1 cs hcs =>
      rw [hcs] at hdigit
      exact absurd (hdigit '-' List.mem_cons_self) (by decide)
    case h_2 cs hcs =>
      rw [hcs] at hdigit
      exact absurd (hdigit '+' List.mem_cons_self) (by decide)
    case h_3 =>
      rw [parseDigits_toDigits, Option.bind_some, ← Int.ofNat_eq_natCast, hrange]
  | negSucc m =>
    rw [hn] at hrange
    have hdigits : (Int.negSucc m).repr.toList = '-' :: Nat.toDigits 10 (m + 1) := by
      show ("-" ++ Nat.repr (m + 1)).toList = _
      rw [String.toList_append, Nat.toList_repr]
      rfl
    have hneg : -((m + 1 : ℕ) : ℤ) = Int.negSucc m := rfl
    rw [parseI64]
    rw [hdigits]
    show (parseDigits (Nat.toDigits 10 (m + 1))).bind (fun n => inRange (-n)) = some n
    rw [parseDigits_toDigits, Option.bind_some, hneg, hrange]

/-! ### The text of a value, read at the type of its column -/

/-- `v` has type `ty`, or is a `NULL` in a column that is not of type `TEXT`. -/
def Value.Survives : Value → ColType → Prop
  | .int _, .int => True
  | .text _, .text => True
  | .bool _, .bool => True
  | .null, .int => True
  | .null, .bool => True
  | _, _ => False

instance (v : Value) (ty : ColType) : Decidable (v.Survives ty) := by
  cases v <;> cases ty <;> first | exact isTrue trivial | exact isFalse id

theorem parse_null_int : parseValueFromStr "NULL" .int = .null := by rfl

theorem parse_null_bool : parseValueFromStr "NULL" .bool = .null := by rfl

theorem parse_int_cases (s : String) : parseValueFromStr s .int = .null ∨ ∃ n, parseValueFromStr s .int = .int n := by
  rw [parseValueFromStr]
  cases parseI64 s with
  | none => exact .inl rfl
  | some n => exact .inr ⟨n, rfl⟩

theorem parse_bool_cases (s : String) :
    parseValueFromStr s .bool = .null ∨ ∃ b, parseValueFromStr s .bool = .bool b := by
  rw [parseValueFromStr]
  by_cases htrue : s = "true"
  · exact .inr ⟨true, if_pos htrue⟩
  · rw [if_neg htrue]
    by_cases hfalse : s = "false"
    · exact .inr ⟨false, if_pos hfalse⟩
    · exact .inl (if_neg hfalse)

theorem parse_display_int (n : Int64) : parseValueFromStr (Value.int n).display .int = .int n := by
  rw [parseValueFromStr, Value.display, parseI64_repr]

theorem parse_display_bool (b : Bool) : parseValueFromStr (Value.bool b).display .bool = .bool b := by
  cases b <;> rfl

/-- A value comes back from its text exactly when it survives. -/
theorem parse_display_iff (v : Value) (ty : ColType) : parseValueFromStr v.display ty = v ↔ v.Survives ty := by
  cases ty with
  | int =>
    cases v with
    | int n => exact iff_of_true (parse_display_int n) trivial
    | null => exact iff_of_true parse_null_int trivial
    | text s =>
      refine iff_of_false (fun h => ?_) id
      rcases parse_int_cases (Value.text s).display with hnull | ⟨n, hint⟩
      · exact Value.noConfusion (hnull.symm.trans h)
      · exact Value.noConfusion (hint.symm.trans h)
    | bool b =>
      refine iff_of_false (fun h => ?_) id
      rcases parse_int_cases (Value.bool b).display with hnull | ⟨n, hint⟩
      · exact Value.noConfusion (hnull.symm.trans h)
      · exact Value.noConfusion (hint.symm.trans h)
  | text =>
    -- what is read at the type `TEXT` is text, whatever was written
    cases v with
    | text s => exact iff_of_true rfl trivial
    | int n => exact iff_of_false (fun h => Value.noConfusion h) id
    | bool b => exact iff_of_false (fun h => Value.noConfusion h) id
    | null => exact iff_of_false (fun h => Value.noConfusion h) id
  | bool =>
    cases v with
    | bool b => exact iff_of_true (parse_display_bool b) trivial
    | null => exact iff_of_true parse_null_bool trivial
    | int n =>
      refine iff_of_false (fun h => ?_) id
      rcases parse_bool_cases (Value.int n).display with hnull | ⟨b, hbool⟩
      · exact Value.noConfusion (hnull.symm.trans h)
      · exact Value.noConfusion (hbool.symm.trans h)
    | text s =>
      refine iff_of_false (fun h => ?_) id
      rcases parse_bool_cases (Value.text s).display with hnull | ⟨b, hbool⟩
      · exact Value.noConfusion (hnull.symm.trans h)
      · exact Value.noConfusion (hbool.symm.trans h)

theorem survives_parse (s : String) (ty : ColType) : (parseValueFromStr s ty).Survives ty := by
  cases ty with
  | int =>
    simp only [parseValueFromStr]
    split <;> trivial
  | text => trivial
  | bool =>
    simp only [parseValueFromStr]
    split
    · trivial
    · split <;> trivial

/-!
## Rows, tables and statements

The data of the engine and the statements that the parser builds. A row is a map from column names to
values, a table a schema with its rows in the order of insertion. `evalExpr` evaluates an expression on a
row; a comparison with `NULL` gives `NULL`, which is not truthy.
-/

open Core

abbrev Row := SortedMap String Value

/-- The value of a column, `NULL` when the row does not have it. -/
def valueOrNull (row : Row) (col : String) : Value := (row.get col).getD .null

structure Column where
  name : String
  colType : ColType
  nullable : Bool
  deriving DecidableEq, Repr

structure Table where
  name : String
  schema : List Column
  rows : List Row
  deriving DecidableEq

namespace Table

def new (name : String) (schema : List Column) : Table := ⟨name, schema, []⟩

def hasColumn (t : Table) (col : String) : Bool := t.schema.any fun c => c.name = col

theorem hasColumn_iff {t : Table} {col : String} : t.hasColumn col = true ↔ col ∈ t.schema.map Column.name := by
  simp [hasColumn]

end Table

/-! #### Expressions and statements -/

inductive BinOpKind where
  | eq
  | notEq
  | lt
  | gt
  | ltEq
  | gtEq
  | and
  | or
  deriving DecidableEq, Repr

inductive Expr where
  | literal (v : Value)
  | column (name : String)
  | qualifiedColumn (table col : String)
  | binOp (left : Expr) (op : BinOpKind) (right : Expr)
  | not (inner : Expr)
  deriving DecidableEq, Repr

inductive SelectCol where
  | star
  | named (name : String)
  | qualified (table col : String)
  deriving DecidableEq, Repr

structure JoinClause where
  table : String
  leftCol : String
  rightCol : String
  deriving DecidableEq, Repr

structure OrderBy where
  column : String
  ascending : Bool
  deriving DecidableEq, Repr

structure SelectStmt where
  columns : List SelectCol
  from' : String
  join : Option JoinClause
  whereClause : Option Expr
  orderBy : Option OrderBy
  limit : Option Nat
  offset : Option Nat
  deriving DecidableEq, Repr

structure InsertStmt where
  table : String
  columns : List String
  rows : List (List Expr)
  deriving DecidableEq, Repr

structure ColDef where
  name : String
  colType : String
  nullable : Bool
  deriving DecidableEq, Repr

structure CreateTableStmt where
  name : String
  columns : List ColDef
  deriving DecidableEq, Repr

structure CreateIndexStmt where
  indexName : String
  table : String
  column : String
  deriving DecidableEq, Repr

inductive Stmt where
  | select (sel : SelectStmt)
  | insert (ins : InsertStmt)
  | createTable (ct : CreateTableStmt)
  | createIndex (ci : CreateIndexStmt)
  | begin
  | commit
  | rollback
  deriving DecidableEq, Repr

/-! #### Results and errors -/

/-- The errors of execution. `expectedLiteral e` is the `ExecutionError` whose text ends with the debug
form of the expression `e`; all others carry their text. -/
inductive SqlError where
  | executionError (m : String)
  | expectedLiteral (e : Expr)
  | tableNotFound (t : String)
  | columnNotFound (c : String)
  | typeMismatch (expected got : String)
  | transactionError (m : String)
  deriving DecidableEq, Repr

abbrev SqlResult (α : Type) := Except SqlError α

structure QueryResult where
  columns : List String
  rows : List Row
  rowsAffected : Nat
  message : String
  deriving DecidableEq

namespace QueryResult

def empty (msg : String) : QueryResult := ⟨[], [], 0, msg⟩

def fromRows (columns : List String) (rows : List Row) : QueryResult :=
  ⟨columns, rows, rows.length, toString rows.length ++ " row(s)"⟩

end QueryResult

/-! #### Expression evaluation -/

def evalBinop (l : Value) (op : BinOpKind) (r : Value) : Value :=
  match op with
  | .and => .bool (l.isTruthy && r.isTruthy)
  | .or => .bool (l.isTruthy || r.isTruthy)
  | .eq => if l = .null ∨ r = .null then .null else .bool (l = r)
  | .notEq => if l = .null ∨ r = .null then .null else .bool (l ≠ r)
  | .lt => if l = .null ∨ r = .null then .null else .bool (l < r)
  | .gt => if l = .null ∨ r = .null then .null else .bool (l > r)
  | .ltEq => if l = .null ∨ r = .null then .null else .bool (l ≤ r)
  | .gtEq => if l = .null ∨ r = .null then .null else .bool (l ≥ r)

/-- The value of a column, or the error that names it. -/
def getColumn (row : Row) (name : String) : SqlResult Value :=
  match row.get name with
  | some v => .ok v
  | none => .error (.columnNotFound name)

/-- Evaluate an expression against a single row. A qualified column is looked up by its name alone. -/
def evalExpr : Expr → Row → SqlResult Value
  | .literal v, _ => .ok v
  | .column name, row => getColumn row name
  | .qualifiedColumn _ col, row => getColumn row col
  | .not inner, row => do
    let v ← evalExpr inner row
    .ok (.bool (!v.isTruthy))
  | .binOp left op right, row => do
    let l ← evalExpr left row
    let r ← evalExpr right row
    .ok (evalBinop l op r)

/-- Evaluate an expression that must be a literal. -/
def evalLiteral : Expr → SqlResult Value
  | .literal v => .ok v
  | e => .error (.expectedLiteral e)

end SystemDesignLabs.Sql

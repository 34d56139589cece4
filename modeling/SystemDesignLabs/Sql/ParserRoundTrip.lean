import SystemDesignLabs.Sql.Parser

/-!
# Printing expressions and parsing them back

`tokensOf` writes an expression with parentheses only where the levels of the parser ask for them: `OR` below `AND`
below `NOT` below comparisons below atoms, with operands of `AND` and `OR` that lean to the left. The parser takes the
tokens back, each level those of the expressions that stand on it or above (`parsesAt_tokensOf`), and so does the `WHERE`
clause of a statement (**`parser_inverts_printer`**).
-/

namespace SystemDesignLabs.Sql

open List Core

/-! ### The printer -/

/-- The level of the parser that an expression stands on: `OR`, `AND`, `NOT`, comparison, atom. -/
def Expr.level : Expr → Nat
  | .binOp _ .or _ => 0
  | .binOp _ .and _ => 1
  | .not _ => 2
  | .binOp _ _ _ => 3
  | _ => 4

def literalToken : Value → Token
  | .int n => .intLit n
  | .text s => .strLit s
  | .bool b => .boolLit b
  | .null => .null

def opToken : BinOpKind → Token
  | .eq => .eq
  | .notEq => .notEq
  | .lt => .lt
  | .gt => .gt
  | .ltEq => .ltEq
  | .gtEq => .gtEq
  | .and => .and
  | .or => .or

/-- The lowest levels on which the left and the right operand stand without parentheses. -/
def operandLevels : BinOpKind → Nat × Nat
  | .or => (0, 1)
  | .and => (1, 2)
  | _ => (4, 4)

/-- Parentheses around what stands below a level. -/
def parenthesize (level : Nat) (e : Expr) (tokens : List Token) : List Token :=
  if level ≤ e.level then tokens else .lParen :: tokens ++ [.rParen]

/-- The tokens of an expression, with the parentheses that it needs. -/
def tokensOf : Expr → List Token
  | .literal v => [literalToken v]
  | .column name => [.ident name]
  | .qualifiedColumn table col => [.ident table, .dot, .ident col]
  | .binOp left op right =>
    parenthesize (operandLevels op).1 left (tokensOf left) ++
      opToken op :: parenthesize (operandLevels op).2 right (tokensOf right)
  | .not inner => .not :: parenthesize 3 inner (tokensOf inner)

/-- `(a = 1 OR NOT (b OR c)) AND d`: parentheses around both disjunctions, none around the negation. -/
example : tokensOf (.binOp (.binOp (.binOp (.column "a") .eq (.literal (.int 1))) .or
    (.not (.binOp (.column "b") .or (.column "c")))) .and (.column "d")) =
    [.lParen, .ident "a", .eq, .intLit 1, .or, .not, .lParen, .ident "b", .or, .ident "c", .rParen, .rParen, .and,
      .ident "d"] := by rfl

/-! ### What a level parses -/

variable {group : Parser Expr} {e : Expr} {ts : List Token}

/-- The tokens do not go on with a name behind a dot, or with a comparison. -/
def EndsCmp (rest : List Token) : Prop := peek rest ≠ .dot ∧ cmpOp (peek rest) = none

/-- A level takes the tokens of an expression from the front. The loops of `AND` and `OR` go on behind it, with the
expression on their left. -/
def ParsesAt (group : Parser Expr) (ts : List Token) (e : Expr) : Nat → Prop
  | 0 => ∀ rest parsed, EndsCmp rest → peek rest ≠ .and →
      opLoop .or .or (parseAndExpr group) (rest.length + 1) e rest = .ok parsed →
        parseOrExpr group (ts ++ rest) = .ok parsed
  | 1 => ∀ rest parsed, EndsCmp rest →
      opLoop .and .and (parseNotExpr group) (rest.length + 1) e rest = .ok parsed →
        parseAndExpr group (ts ++ rest) = .ok parsed
  | 2 => ∀ rest, EndsCmp rest → parseNotExpr group (ts ++ rest) = .ok (e, rest)
  | 3 => ∀ rest, EndsCmp rest → parseCmpExpr group (ts ++ rest) = .ok (e, rest)
  | _ => ∀ rest, peek rest ≠ .dot → parseAtom group (ts ++ rest) = .ok (e, rest)

@[simp] theorem peek_cons (t : Token) (ts : List Token) : peek (t :: ts) = t := rfl

variable {parsed : Expr × List Token}

theorem peek_ne_not_of_parseCmpExpr (h : parseCmpExpr group ts = .ok parsed) : peek ts ≠ .not := by
  cases ts with
  | nil => exact fun h => by cases h
  | cons t ts =>
    rintro (rfl : t = .not)
    cases h

variable {op : BinOpKind}

theorem opLoop_of_ne {tok : Token} {operand : Parser Expr} (h : peek ts ≠ tok) (fuel : Nat) (left : Expr) :
    opLoop tok op operand (fuel + 1) left ts = .ok (left, ts) := by
  rw [opLoop, if_neg h]

theorem opLoop_mono {tok : Token} {operand : Parser Expr} {fuel fuel' : Nat} {left : Expr}
    (h : opLoop tok op operand fuel left ts = .ok parsed) (hfuel : fuel ≤ fuel') :
    opLoop tok op operand fuel' left ts = .ok parsed := by
  induction fuel generalizing fuel' left ts with
  | zero => cases h
  | succ fuel ih =>
    cases fuel' with
    | zero => exact absurd hfuel (Nat.not_succ_le_zero _)
    | succ fuel' =>
      rw [opLoop] at h ⊢
      split at h
      · next hnext =>
        rw [if_pos hnext]
        obtain ⟨⟨right, rest⟩, hright, hloop⟩ := bind_eq_ok.1 h
        exact bind_eq_ok.2 ⟨(right, rest), hright, ih hloop (Nat.le_of_succ_le_succ hfuel)⟩
      · next hnext =>
        rw [if_neg hnext]
        exact h

/-- What a level parses, the level below it parses. -/
theorem ParsesAt.down {n : Nat} (h : ParsesAt group ts e (n + 1)) (hn : n < 4) : ParsesAt group ts e n := by
  obtain rfl | rfl | rfl | rfl : n = 3 ∨ n = 2 ∨ n = 1 ∨ n = 0 := by omega
  · intro rest hends
    refine bind_eq_ok.2 ⟨(e, rest), h rest hends.1, ?_⟩
    dsimp only
    rw [hends.2]
  · intro rest hends
    have hcmp := h rest hends
    rw [parseNotExpr, if_neg (peek_ne_not_of_parseCmpExpr hcmp)]
    exact hcmp
  · intro rest parsed hends hloop
    exact bind_eq_ok.2 ⟨(e, rest), h rest hends, hloop⟩
  · intro rest parsed hends hand hloop
    exact bind_eq_ok.2 ⟨(e, rest), h rest (e, rest) hends (opLoop_of_ne hand _ e), hloop⟩

theorem ParsesAt.of_le {m n : Nat} (h : ParsesAt group ts e n) (hmn : m ≤ n) (hn : n ≤ 4) : ParsesAt group ts e m := by
  induction n with
  | zero =>
    rw [Nat.le_zero.1 hmn]
    exact h
  | succ n ih =>
    rcases Nat.lt_or_eq_of_le hmn with hlt | rfl
    · exact ih (h.down (by omega)) (by omega) (by omega)
    · exact h

/-! ### Parentheses and operators -/

theorem parseOrExpr_of_parsesAt (h : ParsesAt group ts e 0) {rest : List Token} (hends : EndsCmp rest)
    (hand : peek rest ≠ .and) (hor : peek rest ≠ .or) : parseOrExpr group (ts ++ rest) = .ok (e, rest) :=
  h rest (e, rest) hends hand (opLoop_of_ne hor _ e)

theorem parsesAt_parens (h : ∀ rest, EndsCmp rest → peek rest ≠ .and → peek rest ≠ .or →
    group (ts ++ rest) = .ok (e, rest)) : ParsesAt group (.lParen :: ts ++ [.rParen]) e 4 := by
  intro rest _
  have hinner := h (.rParen :: rest) ⟨by simp, rfl⟩ (by simp) (by simp)
  have htokens : .lParen :: ts ++ [.rParen] ++ rest = .lParen :: (ts ++ .rParen :: rest) := by
    rw [append_assoc]
    rfl
  rw [htokens]
  exact bind_eq_ok.2 ⟨(e, .rParen :: rest), hinner, rfl⟩

variable {tsLeft tsRight : List Token} {left right : Expr}

theorem parsesAt_or (hleft : ParsesAt group tsLeft left 0) (hright : ParsesAt group tsRight right 1) :
    ParsesAt group (tsLeft ++ .or :: tsRight) (.binOp left .or right) 0 := by
  intro rest parsed hends hand hloop
  rw [append_assoc, cons_append]
  refine hleft (.or :: (tsRight ++ rest)) parsed ⟨by simp, rfl⟩ (by simp) ?_
  -- the right operand, and then the loop behind it
  have hoperand := hright rest (right, rest) hends (opLoop_of_ne hand _ right)
  rw [opLoop, if_pos (peek_cons _ _)]
  refine bind_eq_ok.2 ⟨(right, rest), hoperand, opLoop_mono hloop ?_⟩
  rw [length_cons, length_append]
  omega

theorem parsesAt_and (hleft : ParsesAt group tsLeft left 1) (hright : ParsesAt group tsRight right 2) :
    ParsesAt group (tsLeft ++ .and :: tsRight) (.binOp left .and right) 1 := by
  intro rest parsed hends hloop
  rw [append_assoc, cons_append]
  refine hleft (.and :: (tsRight ++ rest)) parsed ⟨by simp, rfl⟩ ?_
  rw [opLoop, if_pos (peek_cons _ _)]
  refine bind_eq_ok.2 ⟨(right, rest), hright rest hends, opLoop_mono hloop ?_⟩
  rw [length_cons, length_append]
  omega

theorem parsesAt_not (h : ParsesAt group ts e 3) : ParsesAt group (.not :: ts) (.not e) 2 := by
  intro rest hends
  rw [cons_append, parseNotExpr, if_pos (peek_cons _ _)]
  exact bind_eq_ok.2 ⟨(e, rest), h rest hends, rfl⟩

theorem parsesAt_cmp (hop : cmpOp (opToken op) = some op) (hdot : opToken op ≠ .dot)
    (hleft : ParsesAt group tsLeft left 4) (hright : ParsesAt group tsRight right 4) :
    ParsesAt group (tsLeft ++ opToken op :: tsRight) (.binOp left op right) 3 := by
  intro rest hends
  rw [append_assoc, cons_append]
  refine bind_eq_ok.2 ⟨(left, opToken op :: (tsRight ++ rest)), hleft _ hdot, ?_⟩
  dsimp only [peek_cons]
  rw [hop]
  exact bind_eq_ok.2 ⟨(right, rest), hright rest hends.1, rfl⟩

theorem level_le (e : Expr) : e.level ≤ 4 := by
  cases e with
  | binOp left op right => cases op <;> simp [Expr.level]
  | _ => simp [Expr.level]

/-! ### Whole expressions -/

theorem parsesAt_parenthesize {depth n : Nat} (hn : n ≤ 4)
    (h : ∀ depth, ts.length ≤ depth → ParsesAt (parseExprFuel depth) ts e e.level)
    (hdepth : (parenthesize n e ts).length ≤ depth) : ParsesAt (parseExprFuel depth) (parenthesize n e ts) e n := by
  rw [parenthesize] at hdepth ⊢
  split at hdepth
  · next hlevel =>
    rw [if_pos hlevel]
    exact (h depth hdepth).of_le hlevel (level_le e)
  · next hlevel =>
    rw [if_neg hlevel]
    rw [length_append, length_cons, length_singleton] at hdepth
    obtain ⟨depth, rfl⟩ := Nat.exists_eq_add_one_of_ne_zero (by omega : depth ≠ 0)
    refine (parsesAt_parens fun rest hends hand hor => ?_).of_le hn (Nat.le_refl 4)
    exact parseOrExpr_of_parsesAt ((h depth (by omega)).of_le (Nat.zero_le _) (level_le e)) hends hand hor

/-- The level of an expression takes its tokens, with fuel for as many parentheses as there are tokens. -/
theorem parsesAt_tokensOf (e : Expr) : ∀ depth, (tokensOf e).length ≤ depth →
    ParsesAt (parseExprFuel depth) (tokensOf e) e e.level := by
  induction e with
  | literal v =>
    intro depth _ rest _
    cases v <;> rfl
  | column name =>
    intro depth _ rest hdot
    show (if peek rest = .dot then _ else _) = _
    rw [if_neg hdot]
    rfl
  | qualifiedColumn table col =>
    intro depth _ rest _
    rfl
  | not inner ih =>
    intro depth hdepth
    rw [tokensOf, length_cons] at hdepth
    exact parsesAt_not (parsesAt_parenthesize (by decide) ih (Nat.le_of_succ_le hdepth))
  | binOp left op right ihLeft ihRight =>
    intro depth hdepth
    rw [tokensOf, length_append, length_cons] at hdepth
    have hleft : ∀ n ≤ 4, (operandLevels op).1 = n → ParsesAt (parseExprFuel depth)
        (parenthesize (operandLevels op).1 left (tokensOf left)) left n := by
      rintro n hn rfl
      exact parsesAt_parenthesize hn ihLeft (by omega)
    have hright : ∀ n ≤ 4, (operandLevels op).2 = n → ParsesAt (parseExprFuel depth)
        (parenthesize (operandLevels op).2 right (tokensOf right)) right n := by
      rintro n hn rfl
      exact parsesAt_parenthesize hn ihRight (by omega)
    rw [tokensOf]
    cases op with
    | or => exact parsesAt_or (hleft 0 (by decide) rfl) (hright 1 (by decide) rfl)
    | and => exact parsesAt_and (hleft 1 (by decide) rfl) (hright 2 (by decide) rfl)
    | _ => exact parsesAt_cmp rfl (by decide) (hleft 4 (by decide) rfl) (hright 4 (by decide) rfl)

/-- The tokens do not go on with the expression: no dot, comparison, `AND` or `OR` is next. -/
def Stops (rest : List Token) : Prop := EndsCmp rest ∧ peek rest ≠ .and ∧ peek rest ≠ .or

theorem parseExpr_tokensOf (e : Expr) {rest : List Token} (hstops : Stops rest) :
    parseExpr (tokensOf e ++ rest) = .ok (e, rest) := by
  have hdepth : (tokensOf e).length ≤ (tokensOf e ++ rest).length := by
    rw [length_append]
    exact Nat.le_add_right _ _
  have hlowest := (parsesAt_tokensOf e _ hdepth).of_le (Nat.zero_le _) (level_le e)
  exact parseOrExpr_of_parsesAt hlowest hstops.1 hstops.2.1 hstops.2.2

/-- **The parser inverts the printer**: it takes the tokens of an expression behind `WHERE`, all of them and no others,
and gives the expression back; so does the parser of a whole statement. -/
theorem parser_inverts_printer (e : Expr) (rest : List Token) (hstops : Stops rest) :
    parseWhere (.where' :: tokensOf e ++ rest) = .ok (some e, rest) ∧
      ∀ name : String, parse ([.select, .star, .from', .ident name, .where'] ++ tokensOf e ++ [.eof]) =
        .ok [.select ⟨[.star], name, none, some e, none, none, none⟩] := by
  have hwhere : ∀ rest, Stops rest → parseWhere (.where' :: tokensOf e ++ rest) = .ok (some e, rest) := by
    intro rest hstops
    rw [cons_append, parseWhere, if_pos (peek_cons _ _)]
    exact bind_eq_ok.2 ⟨(e, rest), parseExpr_tokensOf e hstops, rfl⟩
  refine ⟨hwhere rest hstops, fun name => ?_⟩
  have hend := hwhere [.eof] ⟨⟨by simp, rfl⟩, by simp, by simp⟩
  have hselect : parseSelect (.select :: .star :: .from' :: .ident name :: (.where' :: tokensOf e ++ [.eof])) =
      .ok (⟨[.star], name, none, some e, none, none, none⟩, [.eof]) := by
    refine bind_eq_ok.2 ⟨.star :: .from' :: .ident name :: (.where' :: tokensOf e ++ [.eof]), rfl, ?_⟩
    refine bind_eq_ok.2 ⟨([.star], .from' :: .ident name :: (.where' :: tokensOf e ++ [.eof])), rfl, ?_⟩
    refine bind_eq_ok.2 ⟨.ident name :: (.where' :: tokensOf e ++ [.eof]), rfl, ?_⟩
    refine bind_eq_ok.2 ⟨(name, .where' :: tokensOf e ++ [.eof]), rfl, ?_⟩
    refine bind_eq_ok.2 ⟨(none, .where' :: tokensOf e ++ [.eof]), rfl, ?_⟩
    exact bind_eq_ok.2 ⟨(some e, [.eof]), hend, rfl⟩
  have hstmt : parseStmt (.select :: .star :: .from' :: .ident name :: (.where' :: tokensOf e ++ [.eof])) =
      .ok (.select ⟨[.star], name, none, some e, none, none, none⟩, [.eof]) :=
    bind_eq_ok.2 ⟨_, hselect, rfl⟩
  exact bind_eq_ok.2 ⟨_, hstmt, rfl⟩

/-- `NOT` takes a comparison: another `NOT` behind it stands in parentheses, and without them it is refused. -/
example : tokensOf (.not (.not (.column "a"))) = [.not, .lParen, .not, .ident "a", .rParen] ∧
    parseExpr [.not, .not, .ident "a", .eof] = .error (.unexpectedInExpression .not) := by decide

/-- An expression with two chains and a comparison, followed by `LIMIT`. -/
theorem parser_inverts_printer_limit :
    parseWhere [.where', .ident "a", .lt, .intLit 3, .and, .not, .lParen, .ident "b", .or, .ident "t", .dot, .ident "c",
      .rParen, .limit, .intLit 5, .eof] =
      .ok (some (.binOp (.binOp (.column "a") .lt (.literal (.int 3))) .and
        (.not (.binOp (.column "b") .or (.qualifiedColumn "t" "c")))), [.limit, .intLit 5, .eof]) :=
  (parser_inverts_printer (.binOp (.binOp (.column "a") .lt (.literal (.int 3))) .and
    (.not (.binOp (.column "b") .or (.qualifiedColumn "t" "c")))) [.limit, .intLit 5, .eof]
      ⟨⟨by simp, rfl⟩, by simp, by simp⟩).1

end SystemDesignLabs.Sql

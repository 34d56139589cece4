import SystemDesignLabs.Core.Fallible
import SystemDesignLabs.Sql.Ast

/-!
# The parser

The recursive descent parser of `labs/mini-sql-db`. A parser takes the tokens that are left and gives what it has parsed
with the tokens that are left then.

What stands in parentheses is parsed by the argument `group`, so that of the functions for expressions only
`parseExprFuel` is recursive: its fuel counts open parentheses, and that of a loop counts its rounds. No parser moves
back, and each round of a loop takes a token, so that the number of tokens bounds both.
-/

namespace SystemDesignLabs.Sql

open Core

/-- Every distinct token the SQL subset needs. -/
inductive Token where
  | select
  | from'
  | where'
  | insert
  | into
  | values
  | create
  | table
  | index
  | on
  | begin
  | commit
  | rollback
  | order
  | by'
  | asc
  | desc
  | limit
  | offset
  | join
  | inner
  | and
  | or
  | not
  | null
  | true'
  | false'
  | star
  | comma
  | dot
  | semicolon
  | lParen
  | rParen
  | eq
  | notEq
  | lt
  | gt
  | ltEq
  | gtEq
  | intLit (n : Int64)
  | strLit (s : String)
  | boolLit (b : Bool)
  | ident (s : String)
  | eof
  deriving DecidableEq, Repr

/-- The errors of the parser, each with the tokens that its text shows. `endOfTokens` is the panic of `advance` behind
the last token. -/
inductive ParseError where
  | expected (expected got : Token)
  | expectedIdentifier (got : Token)
  | unexpected (got : Token)
  | expectedInteger (clause : String) (got : Token)
  | emptySelectList
  | expectedTableOrIndex (got : Token)
  | expectedTypeName (got : Token)
  | unexpectedInExpression (got : Token)
  | endOfTokens
  | outOfFuel
  deriving DecidableEq, Repr

/-- A parser of the tokens that are left. -/
abbrev Parser (α : Type) := List Token → Except ParseError (α × List Token)

/-! ### Token stream helpers -/

def peek (ts : List Token) : Token := ts.headD .eof

def advance : Parser Token
  | [] => .error .endOfTokens
  | t :: ts => .ok (t, ts)

def expect (expected : Token) (ts : List Token) : Except ParseError (List Token) :=
  if peek ts = expected then .ok ts.tail else .error (.expected expected (peek ts))

def expectIdent : Parser String
  | .ident s :: ts => .ok (s, ts)
  | ts => .error (.expectedIdentifier (peek ts))

/-- The token, if it is next. -/
def maybe (tok : Token) (ts : List Token) : Bool × List Token :=
  if peek ts = tok then (true, ts.tail) else (false, ts)

/-- The loops over a list with commas: an item, and after a comma the next one. -/
def commaLoop {α : Type} (item : Parser α) : Nat → List α → Parser (List α)
  | 0, _, _ => .error .outOfFuel
  | fuel + 1, items, ts => do
    let (a, rest) ← item ts
    if peek rest = .comma then commaLoop item fuel (items ++ [a]) rest.tail else .ok (items ++ [a], rest)

def commaList {α : Type} (item : Parser α) : Parser (List α) := fun ts => commaLoop item (ts.length + 1) [] ts

/-! ### Expressions -/

def parseAtom (group : Parser Expr) : Parser Expr
  | .intLit n :: ts => .ok (.literal (.int n), ts)
  | .strLit s :: ts => .ok (.literal (.text s), ts)
  | .boolLit b :: ts => .ok (.literal (.bool b), ts)
  | .null :: ts => .ok (.literal .null, ts)
  | .ident name :: ts =>
    if peek ts = .dot then do
      let (col, rest) ← expectIdent ts.tail
      .ok (.qualifiedColumn name col, rest)
    else .ok (.column name, ts)
  | .lParen :: ts => do
    let (e, rest) ← group ts
    let rest ← expect .rParen rest
    .ok (e, rest)
  | ts => .error (.unexpectedInExpression (peek ts))

/-- The comparison of a token. -/
def cmpOp : Token → Option BinOpKind
  | .eq => some .eq
  | .notEq => some .notEq
  | .lt => some .lt
  | .gt => some .gt
  | .ltEq => some .ltEq
  | .gtEq => some .gtEq
  | _ => none

def parseCmpExpr (group : Parser Expr) : Parser Expr := fun ts => do
  let (left, rest) ← parseAtom group ts
  match cmpOp (peek rest) with
  | none => .ok (left, rest)
  | some op => do
    let (right, rest) ← parseAtom group rest.tail
    .ok (.binOp left op right, rest)

def parseNotExpr (group : Parser Expr) : Parser Expr := fun ts =>
  if peek ts = .not then do
    let (inner, rest) ← parseCmpExpr group ts.tail
    .ok (.not inner, rest)
  else parseCmpExpr group ts

/-- The loops for `AND` and `OR`: as long as the operator is next, what follows it goes to the right of what was parsed
so far. -/
def opLoop (tok : Token) (op : BinOpKind) (operand : Parser Expr) : Nat → Expr → Parser Expr
  | 0, _, _ => .error .outOfFuel
  | fuel + 1, left, ts =>
    if peek ts = tok then do
      let (right, rest) ← operand ts.tail
      opLoop tok op operand fuel (.binOp left op right) rest
    else .ok (left, ts)

def parseAndExpr (group : Parser Expr) : Parser Expr := fun ts => do
  let (left, rest) ← parseNotExpr group ts
  opLoop .and .and (parseNotExpr group) (rest.length + 1) left rest

def parseOrExpr (group : Parser Expr) : Parser Expr := fun ts => do
  let (left, rest) ← parseAndExpr group ts
  opLoop .or .or (parseAndExpr group) (rest.length + 1) left rest

def parseExprFuel : Nat → Parser Expr
  | 0, _ => .error .outOfFuel
  | depth + 1, ts => parseOrExpr (parseExprFuel depth) ts

def parseExpr : Parser Expr := fun ts => parseExprFuel (ts.length + 1) ts

/-! ### Select -/

/-- The loop of `parse_select_cols`. -/
def selectColsLoop : Nat → List SelectCol → Parser (List SelectCol)
  | 0, _, _ => .error .outOfFuel
  | fuel + 1, cols, ts => do
    let (col, rest) ← (match ts with
      | .star :: ts => .ok (some .star, ts)
      | .ident name :: ts =>
        if peek ts = .dot then do
          let (col, rest) ← expectIdent ts.tail
          .ok (some (.qualified name col), rest)
        else .ok (some (.named name), ts)
      | ts => .ok (none, ts) : Except ParseError (Option SelectCol × List Token))
    match col with
    | none => .ok (cols, rest)
    | some col =>
      if peek rest = .comma then selectColsLoop fuel (cols ++ [col]) rest.tail else .ok (cols ++ [col], rest)

def parseSelectCols : Parser (List SelectCol) := fun ts => do
  let (cols, rest) ← selectColsLoop (ts.length + 1) [] ts
  if cols.isEmpty then .error .emptySelectList else .ok (cols, rest)

/-- The names of the tables before the dots are not kept. -/
def parseJoin : Parser JoinClause := fun ts => do
  let ts := (maybe .inner ts).2
  let ts ← expect .join ts
  let (table, ts) ← expectIdent ts
  let ts ← expect .on ts
  let (_, ts) ← expectIdent ts
  let ts ← expect .dot ts
  let (leftCol, ts) ← expectIdent ts
  let ts ← expect .eq ts
  let (_, ts) ← expectIdent ts
  let ts ← expect .dot ts
  let (rightCol, ts) ← expectIdent ts
  .ok (⟨table, leftCol, rightCol⟩, ts)

def parseOptionalJoin : Parser (Option JoinClause) := fun ts =>
  if peek ts = .inner ∨ peek ts = .join then do
    let (join, rest) ← parseJoin ts
    .ok (some join, rest)
  else .ok (none, ts)

def parseWhere : Parser (Option Expr) := fun ts =>
  if peek ts = .where' then do
    let (e, rest) ← parseExpr ts.tail
    .ok (some e, rest)
  else .ok (none, ts)

def parseOrderBy : Parser (Option OrderBy) := fun ts =>
  if peek ts = .order then do
    let ts ← expect .by' ts.tail
    let (column, ts) ← expectIdent ts
    let (descending, ts) := maybe .desc ts
    .ok (some ⟨column, !descending⟩, (maybe .asc ts).2)
  else .ok (none, ts)

/-- `LIMIT` and `OFFSET`: a number as a `usize`. -/
def parseCount (tok : Token) (clause : String) : Parser (Option Nat) := fun ts =>
  if peek ts = tok then do
    let (t, rest) ← advance ts.tail
    match t with
    | .intLit n => .ok (some n.toUInt64.toNat, rest)
    | t => .error (.expectedInteger clause t)
  else .ok (none, ts)

def parseSelect : Parser SelectStmt := fun ts => do
  let ts ← expect .select ts
  let (columns, ts) ← parseSelectCols ts
  let ts ← expect .from' ts
  let (from', ts) ← expectIdent ts
  let (join, ts) ← parseOptionalJoin ts
  let (whereClause, ts) ← parseWhere ts
  let (orderBy, ts) ← parseOrderBy ts
  let (limit, ts) ← parseCount .limit "LIMIT" ts
  let (offset, ts) ← parseCount .offset "OFFSET" ts
  .ok (⟨columns, from', join, whereClause, orderBy, limit, offset⟩, ts)

/-! ### Insert and create -/

/-- Something in parentheses. -/
def inParens {α : Type} (inner : Parser α) : Parser α := fun ts => do
  let ts ← expect .lParen ts
  let (a, ts) ← inner ts
  let ts ← expect .rParen ts
  .ok (a, ts)

/-- The optional column list of an `INSERT`. -/
def parseInsertColumns : Parser (List String) := fun ts =>
  if peek ts = .lParen then inParens (commaList expectIdent) ts else .ok ([], ts)

def parseInsert : Parser InsertStmt := fun ts => do
  let ts ← expect .insert ts
  let ts ← expect .into ts
  let (table, ts) ← expectIdent ts
  let (columns, ts) ← parseInsertColumns ts
  let ts ← expect .values ts
  let (rows, ts) ← commaList (inParens (commaList fun ts => parseAtom parseExpr ts)) ts
  .ok (⟨table, columns, rows⟩, ts)

def parseColDef : Parser ColDef := fun ts => do
  let (name, ts) ← expectIdent ts
  let (typeTok, ts) ← advance ts
  match typeTok with
  | .ident t => .ok (⟨name, t, true⟩, ts)
  | other => .error (.expectedTypeName other)

def parseCreateTable : Parser CreateTableStmt := fun ts => do
  let (name, ts) ← expectIdent ts
  let (columns, ts) ← inParens (commaList parseColDef) ts
  .ok (⟨name, columns⟩, ts)

def parseCreateIndex : Parser CreateIndexStmt := fun ts => do
  let (indexName, ts) ← expectIdent ts
  let ts ← expect .on ts
  let (table, ts) ← expectIdent ts
  let (column, ts) ← inParens expectIdent ts
  .ok (⟨indexName, table, column⟩, ts)

def parseCreate : Parser Stmt := fun ts => do
  let ts ← expect .create ts
  match peek ts with
  | .table => do
    let (ct, rest) ← parseCreateTable ts.tail
    .ok (.createTable ct, rest)
  | .index => do
    let (ci, rest) ← parseCreateIndex ts.tail
    .ok (.createIndex ci, rest)
  | other => .error (.expectedTableOrIndex other)

/-! ### Statements -/

def parseStmt : Parser Stmt := fun ts =>
  match peek ts with
  | .select => do
    let (sel, rest) ← parseSelect ts
    .ok (.select sel, rest)
  | .insert => do
    let (ins, rest) ← parseInsert ts
    .ok (.insert ins, rest)
  | .create => parseCreate ts
  | .begin => .ok (.begin, ts.tail)
  | .commit => .ok (.commit, ts.tail)
  | .rollback => .ok (.rollback, ts.tail)
  | other => .error (.unexpected other)

/-- The loop of `parse`. -/
def parseLoop : Nat → List Stmt → List Token → Except ParseError (List Stmt)
  | 0, _, _ => .error .outOfFuel
  | fuel + 1, stmts, ts =>
    if peek ts = .eof then .ok stmts
    else do
      let (stmt, rest) ← parseStmt ts
      parseLoop fuel (stmts ++ [stmt]) (maybe .semicolon rest).2

def parse (ts : List Token) : Except ParseError (List Stmt) := parseLoop (ts.length + 1) [] ts

end SystemDesignLabs.Sql

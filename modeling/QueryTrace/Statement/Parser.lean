/-
Reading statements.

A statement begins with one of two keywords.  The clauses of a query are optional and come in one
order only; a keyword out of order is left where it stands, where the closing semicolon is then
missed.  A text without a semicolon at its end is read as if it had one.

* `Statement.parse` reads a text; what stands behind the first statement is not looked at;
* `clause_of_isKeyword` — a clause is read when its keyword is next.
-/
import QueryTrace.Expr.Parser
import QueryTrace.Statement.Basic

namespace QueryTrace

/-! ### Lists and names -/

/-- One or more items with commas between them. -/
def Reader.commaList {α : Type} (item : Reader α) (ts : List Token) :
    Except SyntaxError (Taken (List α) ts) := do
  let first ← item ts
  if first.rest.head? = some "," then
    have shorter := first.tail_shorter
    let more ← commaList item first.rest.tail
    return (more.map (first.value :: ·)).weaken (Nat.le_of_lt shorter)
  else return first.map ([·])
termination_by ts.length
decreasing_by exact shorter

/-- Is the next token the keyword? -/
def nextIsKeyword (keyword : String) (ts : List Token) : Bool :=
  ts.head?.any (Token.isKeyword keyword)

/-- An item and the name given to it, if any. -/
def Reader.aliased {α : Type} (item : Reader α) : Reader (Aliased α) := fun ts => do
  let x ← item ts
  if nextIsKeyword "AS" x.rest then
    let name ← Reader.token x.rest.tail
    return (name.map fun n => ⟨x.value, some n⟩).weaken (Nat.le_of_lt x.tail_shorter)
  else return x.map (⟨·, none⟩)

/-- A sort key, ascending unless it says otherwise. -/
def SortKey.read : Reader SortKey := fun ts => do
  let e ← Expr.readExpr ts
  if nextIsKeyword "DESC" e.rest then return ⟨⟨e.value, false⟩, e.rest.tail, e.tail_shorter⟩
  else if nextIsKeyword "ASC" e.rest then return ⟨⟨e.value, true⟩, e.rest.tail, e.tail_shorter⟩
  else return e.map (⟨·, true⟩)

/-- What follows a keyword that has to be there. -/
def expectKeyword (keyword : String) (failure : SyntaxError) (ts : List Token) :
    Except SyntaxError (List Token) :=
  if nextIsKeyword keyword ts then .ok ts.tail else .error failure

/-! ### Clauses -/

/-- A clause if its keyword is next, and the tokens behind it. -/
def clause {α : Type} (keyword : String) (body : List Token → Except SyntaxError (α × List Token))
    (ts : List Token) : Except SyntaxError (Option α × List Token) :=
  if nextIsKeyword keyword ts then (body ts.tail).map fun (x, rest) => (some x, rest)
  else .ok (none, ts)

theorem clause_of_isKeyword {α : Type} {keyword : String}
    {body : List Token → Except SyntaxError (α × List Token)} {t : Token} {ts : List Token}
    (h : Token.isKeyword keyword t = true) :
    clause keyword body (t :: ts) = (body ts).map fun (x, rest) => (some x, rest) := by
  simp [clause, nextIsKeyword, h]

/-- A list behind the word that completes its keyword. -/
def byList {α : Type} (failure : SyntaxError) (item : Reader α) (ts : List Token) :
    Except SyntaxError (List α × List Token) := do
  let ts ← expectKeyword "BY" failure ts
  Reader.run (Reader.commaList item) ts

/-- A query behind its first keyword, up to its semicolon. -/
def Select.read (ts : List Token) : Except SyntaxError (Select × List Token) := do
  let (columns, ts) ← Reader.run (Reader.commaList (Reader.aliased Expr.readExpr)) ts
  let (tables, ts) ← clause "FROM" (Reader.run (Reader.commaList (Reader.aliased Reader.token))) ts
  let (filter, ts) ← clause "WHERE" Expr.read ts
  let (groupBy, ts) ← clause "GROUP" (byList .groupWithoutBy Expr.readExpr) ts
  let (having, ts) ← clause "HAVING" Expr.read ts
  let (orderBy, ts) ← clause "ORDER" (byList .orderWithoutBy SortKey.read) ts
  let (limit, ts) ← clause "LIMIT" Expr.read ts
  match ts with
  | ";" :: rest =>
    return (⟨columns, tables.getD [], filter, groupBy, having, orderBy, limit⟩, rest)
  | _ => .error .unterminated

namespace Statement

/-- The tokens with a semicolon at their end. -/
def terminate (ts : List Token) : List Token :=
  if ts.getLast? = some ";" then ts else ts ++ [";"]

/-- The statement at the front, and the tokens behind its semicolon. -/
def read (ts : List Token) : Except SyntaxError (Statement × List Token) := do
  match ts with
  | [] => .error .unexpectedEnd
  | first :: ts =>
    if Token.isKeyword "SELECT" first then
      let (select, rest) ← Select.read ts
      return (.query select, rest)
    else if Token.isKeyword "CREATE" first then
      let ts ← expectKeyword "TABLE" .createWithoutTable ts
      let (table, ts) ← Reader.run Reader.token ts
      let ts ← expectKeyword "AS" .createWithoutAs ts
      let ts ← expectKeyword "SELECT" .createWithoutSelect ts
      let (select, rest) ← Select.read ts
      return (.create table select, rest)
    else .error .unsupportedStatement

/-- Reads the statement at the beginning of a text. -/
def parse (text : String) : Except SyntaxError Statement := do
  let ts := Token.scan text
  if ts.isEmpty then .error .noTokens
  let (statement, _) ← read (terminate ts)
  return statement

end Statement

end QueryTrace

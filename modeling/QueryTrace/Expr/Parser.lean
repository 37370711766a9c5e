/-
Reading expressions.

A reader takes tokens off the front of a list and returns what it read with the tokens that are
left.  Operands and operators alternate; `Expr.ofAlternating` then makes the tree.

* `Expr.read` reads the longest expression at the front of a list of tokens;
* `Expr.parse` reads a text that is one expression and nothing else.

Design notes: every reader returns its rest together with the proof that it is shorter, which is
why the recursion through parentheses ends.
-/
import QueryTrace.Expr.Basic
import QueryTrace.SyntaxError
import QueryTrace.Text.Digit

namespace QueryTrace

/-- Readers take at least one token off the front of a list, or say why they cannot. -/
abbrev Reader (α : Type) := (ts : List Token) → Except SyntaxError (Taken α ts)

namespace Reader

/-- One token, whatever it is. -/
def token : Reader Token
  | [] => .error .unexpectedEnd
  | t :: rest => .ok ⟨t, rest, by simp⟩

/-- The reader as a function that returns what it read and the tokens left. -/
def run {α : Type} (reader : Reader α) (ts : List Token) :
    Except SyntaxError (α × List Token) :=
  (reader ts).map fun x => (x.value, x.rest)

end Reader

namespace Expr

/-! ### Operators -/

/-- The operator that a single token is, in whatever case of letters. -/
def operatorOfToken (t : Token) : Option BinOp :=
  match t.toUpper with
  | "OR" => some .or
  | "AND" => some .and
  | "=" => some .eq
  | "!=" => some .ne
  | "<>" => some .ne
  | ">=" => some .ge
  | "<=" => some .le
  | "+" => some .add
  | "-" => some .sub
  | "*" => some .mul
  | "/" => some .div
  | _ => none

/-- The operator at the front, if there is one.  A comparison of two characters comes as two
tokens. -/
def readOperator (ts : List Token) : Except SyntaxError (Option (Taken BinOp ts)) :=
  match ts with
  | [] => .ok none
  | "!" :: "=" :: rest => .ok (some ⟨.ne, rest, by simp +arith⟩)
  | "!" :: _ => .error .loneExclamation
  | "<" :: ">" :: rest => .ok (some ⟨.ne, rest, by simp +arith⟩)
  | "<" :: "=" :: rest => .ok (some ⟨.le, rest, by simp +arith⟩)
  | "<" :: rest => .ok (some ⟨.lt, rest, by simp⟩)
  | ">" :: "=" :: rest => .ok (some ⟨.ge, rest, by simp +arith⟩)
  | ">" :: rest => .ok (some ⟨.gt, rest, by simp⟩)
  | t :: rest => .ok ((operatorOfToken t).map (⟨·, rest, by simp⟩))

/-! ### Operands and expressions -/

/-- A text literal: a quote, the content, and the same quote again. -/
def readQuoted : Reader Expr
  | quote :: content :: close :: rest =>
    if close = quote then .ok ⟨.text content, rest, by simp; omega⟩ else .error .unclosedQuote
  | [_, _] => .error .unclosedQuote
  | _ => .error .unexpectedEnd

/-- A name or number: two numerals around a point are one number, any other token in front of a
point names a table. -/
def readName : Reader Expr
  | [] => .error .unexpectedEnd
  | [_, "."] => .error .unexpectedEnd
  | first :: "." :: second :: rest =>
    if Text.isNumeral first && Text.isNumeral second then
      .ok ⟨.number (first ++ "." ++ second), rest, by simp; omega⟩
    else .ok ⟨.qualified first second, rest, by simp; omega⟩
  | first :: rest =>
    .ok ⟨if Text.isNumeral first then .number first else .column first, rest, by simp⟩

/-- Closes the parenthesis behind what was read in it. -/
def closeParen {α : Type} {ts : List Token} (failure : SyntaxError) (x : Taken α ts) :
    Except SyntaxError (Taken α ts) :=
  match x with
  | ⟨value, ")" :: rest, h⟩ => .ok ⟨value, rest, by simp at h; omega⟩
  | _ => .error failure

/-- The tree of the operands and operators that were read, if they alternate. -/
def ofAlternating (operands : List Expr) (ops : List BinOp) : Except SyntaxError Expr :=
  match assemble operands ops with
  | some e => .ok e
  | none => .error .notAlternating

mutual

/-- One operand: an expression in parentheses, a text, an aggregate, a number or a name. -/
def readOperand (ts : List Token) : Except SyntaxError (Taken Expr ts) :=
  match ts with
  | [] => .error .unexpectedEnd
  | first :: rest =>
    if first = "(" then do
      let inner ← readExpr rest
      let inner ← closeParen .unclosedParen inner
      return inner.weaken (by simp)
    else if Token.isQuote first then readQuoted (first :: rest)
    else if rest.head? = some "(" then do
      let inner ← readExpr rest.tail
      let inner ← closeParen .aggregateArguments inner
      return (inner.map (.aggregate first)).weaken (by simp; omega)
    else readName (first :: rest)
termination_by 3 * ts.length
decreasing_by all_goals simp only [List.length_tail, List.length_cons]; omega

/-- Operands and operators by turns, as long as operators follow. -/
def readChain (ts : List Token) :
    Except SyntaxError (Taken (List Expr × List BinOp) ts) := do
  let operand ← readOperand ts
  match ← readOperator operand.rest with
  | none => return operand.map ([·], [])
  | some op =>
    have shorter : op.rest.length < ts.length := Nat.lt_trans op.shorter operand.shorter
    let more ← readChain op.rest
    return (more.map fun (es, ops) => (operand.value :: es, op.value :: ops)).weaken
      (Nat.le_of_lt shorter)
termination_by 3 * ts.length + 1

/-- The longest expression at the front. -/
def readExpr (ts : List Token) : Except SyntaxError (Taken Expr ts) := do
  let chain ← readChain ts
  let e ← ofAlternating chain.value.1 chain.value.2
  return chain.map fun _ => e
termination_by 3 * ts.length + 2

end

/-- Reads the longest expression at the front; the tokens behind it are left. -/
def read (ts : List Token) : Except SyntaxError (Expr × List Token) :=
  Reader.run readExpr ts

/-- Reads a text that is one expression and nothing else. -/
def parse (text : String) : Except SyntaxError Expr := do
  match ← read (Token.scan text) with
  | (e, []) => return e
  | (_, t :: _) => .error (.trailing t)

end Expr
end QueryTrace

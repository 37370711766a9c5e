/-
Canonical text of expressions.

An operand that is itself an operation stands in parentheses, whatever the operators, so the text
shows the whole tree.  A text literal is put between double quotes, or between single quotes if it
holds a double quote.

* `Expr.print` is the text of an expression.
-/
import QueryTrace.Expr.Basic

namespace QueryTrace.Expr

/-- Is the expression an operation between two others? -/
def isOperation : Expr → Bool
  | binary _ _ _ => true
  | _ => false

/-- The quote that a text literal is printed with. -/
def quoteFor (content : String) : String :=
  if content.toList.contains '"' then "'" else "\""

/-- The text between parentheses if asked for. -/
def parenthesizeIf (needed : Bool) (s : String) : String :=
  if needed then "(" ++ s ++ ")" else s

/-- The canonical text of an expression. -/
def print : Expr → String
  | .number raw => raw
  | .text content => quoteFor content ++ content ++ quoteFor content
  | .column name => name
  | .qualified table name => table ++ "." ++ name
  | .aggregate function argument => function ++ "(" ++ argument.print ++ ")"
  | .binary op l r =>
    parenthesizeIf l.isOperation l.print ++ " " ++ op.symbol ++ " " ++
      parenthesizeIf r.isOperation r.print

end QueryTrace.Expr

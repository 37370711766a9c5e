/-
Why a text is not a statement or expression.

* `SyntaxError.message` is the wording of each cause.
-/
import QueryTrace.Token

namespace QueryTrace

/-- The causes for which a text is refused. -/
inductive SyntaxError where
  /-- The text has no tokens. -/
  | noTokens
  /-- The tokens end where another one is needed. -/
  | unexpectedEnd
  /-- An opening parenthesis has no closing one behind its expression. -/
  | unclosedParen
  /-- The content of a quoted text is not followed by its quote. -/
  | unclosedQuote
  /-- An aggregate has more than one expression in its parentheses. -/
  | aggregateArguments
  /-- An exclamation mark is not followed by an equals sign. -/
  | loneExclamation
  /-- Operands and operators do not alternate. -/
  | notAlternating
  /-- A statement begins with neither of the words that may begin one. -/
  | unsupportedStatement
  | createWithoutTable
  | createWithoutAs
  | createWithoutSelect
  | groupWithoutBy
  | orderWithoutBy
  /-- Something other than a semicolon follows the last clause. -/
  | unterminated
  /-- A token follows an expression that stands alone. -/
  | trailing (token : Token)
  deriving DecidableEq, Repr

/-- The wording of a cause. -/
def SyntaxError.message : SyntaxError → String
  | noTokens => "No tokens found"
  | unexpectedEnd => "unexpected end of statement"
  | unclosedParen => "Parens not closed correctly"
  | unclosedQuote => "Quotation marks must be matched"
  | aggregateArguments => "Aggregates should only take one expression"
  | loneExclamation => "Unknown operator: !"
  | notAlternating => "operands and operators do not alternate"
  | unsupportedStatement => "Can only handle SELECT and CREATE TABLE ... AS statements"
  | createWithoutTable => "CREATE must be followed by TABLE"
  | createWithoutAs => "CREATE TABLE <name> must be followed by AS"
  | createWithoutSelect => "CREATE TABLE ... AS must be followed by a SELECT statement"
  | groupWithoutBy => "GROUP must be followed by BY"
  | orderWithoutBy => "ORDER must be followed by BY"
  | unterminated => "SELECT statement not terminated."
  | trailing token => "Unexpected token after expression: " ++ token

end QueryTrace

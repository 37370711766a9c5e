/-
What can go wrong, and how it is worded.

* `EvalError`, `ResourceError` and `Failure` hold the causes;
* `Failure.message` is the wording; a failure of the store speaks for itself.
-/
import QueryTrace.SyntaxError

namespace QueryTrace

/-- The causes for which an expression has no value, or a table no meaning. -/
inductive EvalError where
  /-- A number is written in a way that cannot be read. -/
  | invalidNumber (raw : String)
  /-- A name is neither a column nor an alias. -/
  | unknownColumn (name : String)
  /-- A row is too short to have a cell in a column. -/
  | missingCell (name : String)
  /-- An alias is defined by itself. -/
  | circularAlias (name : String)
  /-- An aggregate stands where there is no group. -/
  | ungroupedAggregate
  | unknownAggregate (function : String)
  /-- A row is not as long as the list of columns. -/
  | ragged (row values columns : Nat)
  deriving DecidableEq, Repr

namespace EvalError

def message : EvalError → String
  | invalidNumber raw => "Invalid numeric literal: " ++ raw
  | unknownColumn name => "Unable to evaluate column name: " ++ name
  | missingCell name => "Row is missing column: " ++ name
  | circularAlias name => "Alias refers to itself: " ++ name
  | ungroupedAggregate => "aggregates can't be used outside a grouped context"
  | unknownAggregate function => "Unknown aggregate function: " ++ function
  | ragged row values columns =>
    "row " ++ toString row ++ " has " ++ toString values ++ " values but the table has " ++
      toString columns ++ " columns"

end EvalError

/-- The limits that a trace can run into. -/
inductive ResourceError where
  /-- The number of rows of a product does not fit in 64 bits. -/
  | productOverflow
  /-- A product has more rows than allowed. -/
  | productTooLarge (rows limit : Nat)
  /-- The time for a trace is used up; the budget is in milliseconds. -/
  | outOfTime (budget : Nat)
  deriving DecidableEq, Repr

namespace ResourceError

def message : ResourceError → String
  | productOverflow => "cartesian product size overflows"
  | productTooLarge rows limit =>
    "cartesian product of " ++ toString rows ++ " rows exceeds max_product_rows (" ++
      toString limit ++ ")"
  | outOfTime budget => "simulation exceeded its time budget of " ++ toString budget ++ " ms"

end ResourceError

/-- The ways in which a statement can fail. -/
inductive Failure where
  | malformed (cause : SyntaxError)
  | evaluation (cause : EvalError)
  | resource (cause : ResourceError)
  /-- The store refused; the message is its own. -/
  | store (message : String)
  deriving DecidableEq, Repr

namespace Failure

def message : Failure → String
  | malformed cause => "syntax error: " ++ cause.message
  | evaluation cause => "evaluation error: " ++ cause.message
  | resource cause => "resource error: " ++ cause.message
  | store message => message

end Failure

end QueryTrace

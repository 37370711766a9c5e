/-
Values of expressions.

An expression is evaluated on one row.  A name means a column of that name, or else the first
column whose name ends in it behind a point, or else an expression of the select list that has
that alias.  An aggregate is evaluated on the rows of a group.

* `resolve_of_columnIndex?` — columns win over aliases;
* `evaluate_binary` — both operands are evaluated, the left one first.

Design notes: an alias may lead to other aliases.  Each step is counted, and there may be as many
as the select list has entries, so a longer way must pass an entry twice.  `Expr.evalUsing` is
evaluation over any meaning of names; `resolve` closes the circle between the two.
-/
import QueryTrace.Decimal.Reader
import QueryTrace.Failure
import QueryTrace.Statement.Basic
import QueryTrace.Value

namespace QueryTrace

/-! ### Names of columns -/

/-- What follows the first point of a name. -/
def suffix? (name : String) : Option String :=
  match name.toList.dropWhile (· != '.') with
  | [] => none
  | _ :: suffix => some (String.ofList suffix)

/-- The column that a name means: one of that name if there is any, or else the first one with
that name behind its first point. -/
def columnIndex? (columns : List String) (name : String) : Option Nat :=
  (columns.findIdx? (· == name)).or (columns.findIdx? fun c => suffix? c == some name)

/-! ### Operations and aggregates -/

/-- The value of an operation. -/
def BinOp.apply (op : BinOp) (a b : Value) : Value :=
  match op with
  | or => .boolean (a.truthy || b.truthy)
  | and => .boolean (a.truthy && b.truthy)
  | ne => .boolean (!a.looseEq b)
  | eq => .boolean (a.looseEq b)
  | gt => .boolean (a.compare b == some .gt)
  | ge => .boolean (a.compare b == some .gt || a.compare b == some .eq)
  | lt => .boolean (a.compare b == some .lt)
  | le => .boolean (a.compare b == some .lt || a.compare b == some .eq)
  | add => a.add b
  | sub => a.sub b
  | mul => a.mul b
  | div => a.div b

namespace Aggregate

/-- The number of values. -/
def count (values : List Value) : Value :=
  .integer (Int64.ofNat values.length)

/-- The values added up from the first one on. -/
def sum : List Value → Value
  | [] => .null
  | v :: vs => vs.foldl Value.add v

/-- The better of two values, where null is the worst; of values that cannot be compared the first
one stays. -/
def better (wanted : Ordering) (best v : Value) : Value :=
  if best.isNull || v.compare best == some wanted then v else best

/-- The best of the values. -/
def extreme (wanted : Ordering) (values : List Value) : Value :=
  values.foldl (better wanted) .null

/-- The value of the aggregate of the given name, written in small letters. -/
def apply (function : String) (values : List Value) : Except EvalError Value :=
  match function with
  | "count" => .ok (count values)
  | "sum" => .ok (sum values)
  | "max" => .ok (extreme .gt values)
  | "min" => .ok (extreme .lt values)
  | _ => .error (.unknownAggregate function)

/-- Does the aggregate count rows, without a look at their cells? -/
def countsRows (function : String) (argument : Expr) : Bool :=
  function == "count" && argument == .column "*"

end Aggregate

/-! ### Evaluation -/

/-- The meaning of names on a row. -/
abbrev Names := String → Row → Except EvalError Value

/-- The value of an expression on a row, given the meaning of names and the rows of the group. -/
def Expr.evalUsing (names : Names) (group : Option (List Row)) :
    Expr → Row → Except EvalError Value
  | .number raw, _ =>
    match Decimal.readDouble? raw with
    | some x => .ok (.real x)
    | none => .error (.invalidNumber raw)
  | .text s, _ => .ok (.text s)
  | .column name, row => names name row
  | .qualified table name, row => names (table ++ "." ++ name) row
  | .aggregate function argument, _ =>
    match group with
    | none => .error .ungroupedAggregate
    | some rows =>
      if Aggregate.countsRows function.toLower argument then
        -- the star is not a column, so it must not be looked up
        .ok (.integer (Int64.ofNat rows.length))
      else do
        let values ← rows.mapM fun row => argument.evalUsing names group row
        Aggregate.apply function.toLower values
  | .binary op l r, row => do
    let a ← l.evalUsing names group row
    let b ← r.evalUsing names group row
    return op.apply a b

/-- All that an expression may refer to, except for the row. -/
structure Scope where
  columns : List String
  /-- The select list, for its aliases. -/
  aliases : List (Aliased Expr) := []
  /-- The rows of the group, if there is one. -/
  group : Option (List Row) := none

namespace Scope

/-- The entry of the select list that has the alias. -/
def definition? (scope : Scope) (name : String) : Option (Aliased Expr) :=
  scope.aliases.find? (·.name? == some name)

/-- The cell of a row in a column. -/
def cell (name : String) (row : Row) (i : Nat) : Except EvalError Value :=
  match row[i]? with
  | some v => .ok v
  | none => .error (.missingCell name)

/-- The meaning of names when at most `steps` aliases may still be followed. -/
def resolve (scope : Scope) : Nat → Names
  | steps, name, row =>
    match columnIndex? scope.columns name, scope.definition? name, steps with
    | some i, _, _ => cell name row i
    | none, none, _ => .error (.unknownColumn name)
    | none, some _, 0 => .error (.circularAlias name)
    | none, some entry, steps + 1 => entry.item.evalUsing (resolve scope steps) scope.group row

theorem resolve_of_columnIndex? {scope : Scope} {steps i : Nat} {name : String} {row : Row}
    (h : columnIndex? scope.columns name = some i) :
    scope.resolve steps name row = cell name row i := by
  cases steps <;> simp [resolve, h]

/-- The value of an expression on a row. -/
def evaluate (scope : Scope) (e : Expr) (row : Row) : Except EvalError Value :=
  e.evalUsing (scope.resolve scope.aliases.length) scope.group row

theorem evaluate_binary (scope : Scope) (op : BinOp) (l r : Expr) (row : Row) :
    scope.evaluate (.binary op l r) row =
      (do
        let a ← scope.evaluate l row
        let b ← scope.evaluate r row
        return op.apply a b) := rfl

end Scope

end QueryTrace

/-
Statements of the query language.

A statement is a query, or the creation of a table from a query.  Every statement has exactly one
query (`Statement.select`), and only that query is ever traced.

* `Aliased.displayName` is the name by which a table goes: its alias, or else its own name.
-/
import QueryTrace.Expr.Basic

namespace QueryTrace

/-- Something that may have been given another name. -/
structure Aliased (α : Type) where
  item : α
  name? : Option String := none
  deriving DecidableEq, Repr

namespace Aliased

/-- The name that the columns of a listed table are qualified with. -/
def displayName (table : Aliased String) : String :=
  table.name?.getD table.item

end Aliased

/-- A sort key and its direction. -/
structure SortKey where
  expr : Expr
  ascending : Bool := true
  deriving DecidableEq, Repr

/-- A query. -/
structure Select where
  /-- What the result is made of. -/
  columns : List (Aliased Expr)
  /-- The tables that are joined; none if the query reads no table. -/
  tables : List (Aliased String) := []
  /-- The condition on the rows of the joined table. -/
  filter : Option Expr := none
  /-- The keys by which rows are grouped. -/
  groupBy : Option (List Expr) := none
  /-- The condition on groups. -/
  having : Option Expr := none
  /-- The order of the result, which only the store applies. -/
  orderBy : Option (List SortKey) := none
  /-- The bound on the result, which only the store applies. -/
  limit : Option Expr := none
  deriving DecidableEq, Repr

/-- A statement. -/
inductive Statement where
  | query (select : Select)
  /-- A new table that holds the result of a query. -/
  | create (table : String) (select : Select)
  deriving DecidableEq, Repr

/-- The query of a statement. -/
def Statement.select : Statement → Select
  | query s => s
  | create _ s => s

end QueryTrace

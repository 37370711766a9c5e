/-
Canonical text of statements.

Clauses come in a fixed order, each only if it is present, and a semicolon ends the text.  A
descending sort key says so; an ascending one does not.

* `Statement.print` is the text of a statement, and `Select.print` that of a query.
-/
import QueryTrace.Expr.Printer
import QueryTrace.Statement.Basic

namespace QueryTrace

/-- The text of an item with the name it was given, if any. -/
def Aliased.print {α : Type} (text : α → String) (a : Aliased α) : String :=
  match a.name? with
  | some name => text a.item ++ " AS " ++ name
  | none => text a.item

/-- The text of a sort key. -/
def SortKey.print (key : SortKey) : String :=
  if key.ascending then key.expr.print else key.expr.print ++ " DESC"

namespace Select

/-- A clause with its keyword and blanks, or nothing if it is absent. -/
def printClause {α : Type} (keyword : String) (text : α → String) : Option α → String
  | some clause => " " ++ keyword ++ " " ++ text clause
  | none => ""

/-- The texts of several items, separated by commas. -/
def printList {α : Type} (text : α → String) (items : List α) : String :=
  ", ".intercalate (items.map text)

/-- The canonical text of a query. -/
def print (s : Select) : String :=
  "SELECT " ++ printList (Aliased.print Expr.print) s.columns ++
    printClause "FROM" (printList (Aliased.print id)) (if s.tables.isEmpty then none else some s.tables) ++
    printClause "WHERE" Expr.print s.filter ++
    printClause "GROUP BY" (printList Expr.print) s.groupBy ++
    printClause "HAVING" Expr.print s.having ++
    printClause "ORDER BY" (printList SortKey.print) s.orderBy ++
    printClause "LIMIT" Expr.print s.limit ++
    ";"

end Select

namespace Statement

/-- The canonical text of a statement. -/
def print : Statement → String
  | query s => s.print
  | create table s => "CREATE TABLE " ++ table ++ " AS " ++ s.print

end Statement

end QueryTrace

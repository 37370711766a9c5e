/-
A store of finished tables.

A shelf holds tables under their names.  It answers questions for whole tables and no others, and
nothing that is executed changes it.  In a file it is an object of Json with a table for each name.

* `Shelf.answer` takes the statement `SELECT * FROM name;` apart and looks the name up;
* `Shelf.engine` is a shelf as a store of the console.
-/
import QueryTrace.Console.Session
import QueryTrace.Json.Reader

namespace QueryTrace

/-- Named tables. -/
structure Shelf where
  tables : List (String × Table) := []
  deriving Repr, Inhabited

namespace Shelf

/-- The shelf in a value of Json. -/
def ofJson? : Json → Option Shelf
  | .object members => do
    return ⟨← members.mapM fun (name, t) => do return (← name, ← Table.ofJson? t)⟩
  | _ => none

/-- The name of the table that a statement reads as a whole. -/
def wholeTable? (statement : Statement) : Option String :=
  match statement with
  | .query ⟨[⟨.column "*", none⟩], [⟨name, none⟩], none, none, none, none, none⟩ => some name
  | _ => none

/-- The answer to a question. -/
def answer (shelf : Shelf) : Catalogue := fun question =>
  match Statement.parse question with
  | .error cause => .error cause.message
  | .ok statement =>
    match wholeTable? statement with
    | none => .error "only whole tables can be read"
    | some name =>
      match shelf.tables.lookup name with
      | some t => .ok [t]
      | none => .error ("no such table: " ++ name)

/-- The statement that would create a table. -/
def creation (name : String) (t : Table) : String :=
  "CREATE TABLE " ++ name ++ " (" ++ ", ".intercalate t.columns ++ ");"

/-- The shelf in the text of a file. -/
def parse (text : String) : Except String Shelf :=
  match (Json.parse? text).bind ofJson? with
  | some shelf => .ok shelf
  | none => .error "the file holds no tables"

/-- Shelves as stores; the files that can be opened are given. -/
def engine (fileText : String → Except String String) : Engine Shelf where
  answer := answer
  next shelf _ := shelf
  tableNames shelf := .ok (shelf.tables.map (·.1))
  schema shelf := .ok (shelf.tables.map fun (name, t) => creation name t)
  openStore
    | none => .ok {}
    | some path => fileText path >>= parse

end Shelf

end QueryTrace

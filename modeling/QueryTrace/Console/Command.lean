/-
Commands of the console.

A command is a line that begins with a point.  Its name reaches to the first blank, and what
follows is its argument.

* `Command.parse` understands every line: one without a known name is an unknown command, and an
  argument that makes no sense is none;
* `Command.helpText` is what the console says of its commands.
-/
import QueryTrace.Decimal.Reader
import QueryTrace.Text.Blank

namespace QueryTrace

/-- What the user can tell the console, besides statements. -/
inductive Command where
  | exit
  | help
  | tables
  | schema
  /-- Open a store, or an empty one if no path is given. -/
  | openStore (path : Option String)
  /-- Execute the statements in a file. -/
  | read (path : Option String)
  /-- Show the steps after each statement, or stop doing so. -/
  | visualize (setting : Option Bool)
  | steps
  | next
  | prev
  /-- Go to a step, counted from one. -/
  | step (number : Option Nat)
  | explain (sql : String)
  | json
  | unknown (name : String)
  deriving DecidableEq, Repr

namespace Command

/-- What the console says of its commands. -/
def helpText : String :=
  "\n".intercalate [
    ".help              Show this message",
    ".exit | .quit      Leave the console",
    ".tables            List tables",
    ".schema            Show CREATE statements",
    ".open [PATH]       Open a SQLite file (in-memory when PATH is omitted)",
    ".read PATH         Execute the statements in a file",
    ".visualize on|off  Print every step after each statement",
    ".steps             List the steps of the last statement",
    ".next | .prev      Move through the steps",
    ".step N            Jump to step N (1-based)",
    ".explain SQL       Show how a statement is parsed",
    ".json              Print the last steps as JSON"]

/-- The name of a command and its argument. -/
def split (line : String) : String × String :=
  let cs := line.toList
  (String.ofList (cs.takeWhile (!Text.isBlank ·)),
    String.ofList (Text.trim (cs.dropWhile (!Text.isBlank ·))))

/-- An argument that has to be there. -/
def required (argument : String) : Option String :=
  if argument.isEmpty then none else some argument

/-- The setting of a switch, in whatever case of letters. -/
def switch? (argument : String) : Option Bool :=
  match argument.toLower with
  | "on" => some true
  | "off" => some false
  | _ => none

/-- A number that counts from one. -/
def ordinal? (argument : String) : Option Nat :=
  (Decimal.readNatural? argument.toList).filter (1 ≤ ·)

/-- The command that a line means. -/
def parse (line : String) : Command :=
  let (name, argument) := split line
  match name with
  | ".exit" => .exit
  | ".quit" => .exit
  | ".help" => .help
  | ".tables" => .tables
  | ".schema" => .schema
  | ".open" => .openStore (required argument)
  | ".read" => .read (required argument)
  | ".visualize" => .visualize (switch? argument)
  | ".steps" => .steps
  | ".next" => .next
  | ".prev" => .prev
  | ".step" => .step (ordinal? argument)
  | ".explain" => .explain argument
  | ".json" => .json
  | _ => .unknown name

end Command

end QueryTrace

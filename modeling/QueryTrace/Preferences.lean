/-
Preferences of the user.

Preferences are kept in a file of Json.  A file that is missing or cannot be read counts as one
without any settings, and two settings of the environment go before the file.

* `Preferences.load` — file first, environment second;
* `Preferences.limits` — the limits for traces that come of them.

Design notes: zero switches a limit off, in the file as well as in the environment.  That is a
matter of `Preferences.limits` alone; the preferences keep the zero.
-/
import QueryTrace.Decimal.Reader
import QueryTrace.Json.Fields
import QueryTrace.Json.Reader
import QueryTrace.Json.Writer
import QueryTrace.Text.Blank
import QueryTrace.Trace.Run

namespace QueryTrace

/-- What the user can choose. -/
structure Preferences where
  /-- The store to open at the start. -/
  database : Option String := none
  /-- Are the steps shown after each statement? -/
  visualize : Bool := false
  /-- The greatest number of rows of a product; zero for any number. -/
  maxProductRows : Option Nat := none
  /-- The time for a trace in milliseconds; zero for any time. -/
  timeBudget : Option Nat := none
  deriving DecidableEq, Repr, Inhabited

namespace Preferences

/-! ### The file -/

/-- A setting that is there is true or false. -/
def flag? : Option Json → Option Bool
  | none => some false
  | some (.bool b) => some b
  | _ => none

def ofJson? (j : Json) : Option Preferences := do
  match ← j.fields? true ["database", "visualize", "max_product_rows", "time_budget_ms"] with
  | [database, visualize, rows, time] =>
    return { database := ← Json.nullable? Json.text? database
             visualize := ← flag? visualize
             maxProductRows := ← Json.nullable? Json.natural? rows
             timeBudget := ← Json.nullable? Json.natural? time }
  | _ => none

def toJson (p : Preferences) : Json :=
  .record [("database", .nullable .text p.database), ("visualize", .bool p.visualize),
    ("max_product_rows", .nullable .natural p.maxProductRows),
    ("time_budget_ms", .nullable .natural p.timeBudget)]

/-- The preferences in the text of a file. -/
def parse? (text : String) : Option Preferences :=
  (Json.parse? text).bind ofJson?

/-- The text of a file with the preferences. -/
def print (p : Preferences) : String :=
  Json.print Json.pretty p.toJson

/-! ### The environment -/

/-- A number as the environment spells it, with blanks around it if wanted. -/
def readSetting? (text : String) : Option Nat :=
  Decimal.readNatural? (Text.trim text.toList)

/-- The preferences with the two settings of the environment, each where it can be read. -/
def override (rows time : Option String) (p : Preferences) : Preferences :=
  { p with
    maxProductRows := (rows.bind readSetting?).or p.maxProductRows
    timeBudget := (time.bind readSetting?).or p.timeBudget }

/-- The preferences from the text of the file, if there is a file, and the environment. -/
def load (file rows time : Option String) : Preferences :=
  ((file.bind parse?).getD {}).override rows time

/-! ### Limits -/

/-- A limit that is not zero. -/
def positive? (n : Nat) : Option Nat :=
  if n = 0 then none else some n

/-- The limits that the user wants for traces. -/
def limits (p : Preferences) : Limits where
  maxProductRows := match p.maxProductRows with
    | some n => positive? n
    | none => Limits.maxProductRows {}
  timeBudget := p.timeBudget.bind positive?

end Preferences

end QueryTrace

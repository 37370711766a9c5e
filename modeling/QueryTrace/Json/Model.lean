/-
Values, tables and steps in Json.

Each type has a form in Json (`toJson`) and a reader of that form (`ofJson?`).

* a real number is written with its shortest digits, in positional notation from `0.00001` to just
  below ten to the sixteenth and with a point in any case; infinities become null;
* a number that is read is an integer if it has neither point nor exponent and fits in 64 bits,
  and a real otherwise;
* `Label.ofJson?_toJson_kept` and `Label.ofJson?_toJson_rejected` read the labels without an index
  back, and `StepKind.ofName?_name` the kinds of steps.

Design notes: a table is read as it stands, so nothing says that its rows are all of one length.
-/
import QueryTrace.Json.Fields
import QueryTrace.Table.Annotated

namespace QueryTrace

/-! ### Values -/

namespace Value

/-- Reals in Json have a point or an exponent, so that they are no integers. -/
def jsonFormat : Decimal.Format where
  positional e := -5 ≤ e && e ≤ 15
  pointZero := true
  tie := .even

/-- A real in Json. -/
def realToJson (x : Float) : Json :=
  match Decimal.Double.ofFloat x with
  | .finite negative m q => .number (jsonFormat.finite negative m q)
  | _ => .null

def toJson : Value → Json
  | null => .null
  | integer n => .number (toString n.toInt)
  | real x => realToJson x
  | text s => .text s
  | boolean b => .bool b

/-- The value of a number. -/
def ofNumber? (raw : String) : Option Value :=
  ((Json.integer? raw).bind ofInt?).or ((Json.real? raw).map real)

def ofJson? : Json → Option Value
  | .null => some null
  | .bool b => some (boolean b)
  | .number raw => ofNumber? raw
  | .string s => s.map text
  | _ => none

end Value

/-! ### Labels -/

namespace Label

def toJson : Label → Json
  | kept => .text "kept"
  | rejected => .text "rejected"
  | group id => .record [("group", .natural id)]
  | source index => .record [("source", .natural index)]

def ofJson? (j : Json) : Option Label :=
  match j with
  | .object [(some "group", n)] => (Json.natural? n).map group
  | .object [(some "source", n)] => (Json.natural? n).map source
  | _ =>
    match j.word? with
    | some "kept" => some kept
    | some "rejected" => some rejected
    | _ => none

theorem ofJson?_toJson_kept : ofJson? (toJson kept) = some kept := by
  decide +kernel

theorem ofJson?_toJson_rejected : ofJson? (toJson rejected) = some rejected := by
  decide +kernel

end Label

/-! ### Tables -/

namespace Table

def toJson (t : Table) : Json :=
  .record [("columns", .array (t.columns.map .text)),
    ("rows", .array (t.rows.map fun row => .array (row.map Value.toJson)))]

def ofJson? (j : Json) : Option Table := do
  match ← j.fields? false ["columns", "rows"] with
  | [some columns, some rows] =>
    let columns ← (← columns.items?).mapM Json.text?
    let rows ← (← rows.items?).mapM fun row => do (← row.items?).mapM Value.ofJson?
    return ⟨columns, rows⟩
  | _ => none

end Table

namespace RowGroup

def toJson (g : RowGroup) : Json :=
  .record [("key", .text g.key), ("members", .array (g.members.map .natural))]

def ofJson? (j : Json) : Option RowGroup := do
  match ← j.fields? false ["key", "members"] with
  | [some key, some members] => return ⟨← key.text?, ← (← members.items?).mapM Json.natural?⟩
  | _ => none

end RowGroup

namespace Annotated

def toJson (t : Annotated) : Json :=
  .record [("snapshot", t.table.toJson), ("table_label", .nullable Label.toJson t.label),
    ("row_labels", .nullable (fun labels => .array (labels.map Label.toJson)) t.rowLabels)]

/-- The labels of the rows. -/
def readRowLabels? (j : Json) : Option (List Label) := do
  (← j.items?).mapM Label.ofJson?

def ofJson? (j : Json) : Option Annotated := do
  match ← j.fields? false ["snapshot", "table_label", "row_labels"] with
  | [some table, label, rowLabels] =>
    return { table := ← Table.ofJson? table
             label := ← Json.nullable? Label.ofJson? label
             rowLabels := ← Json.nullable? readRowLabels? rowLabels }
  | _ => none

end Annotated

/-! ### Steps -/

namespace StepKind

/-- The name of a kind of step. -/
def name : StepKind → String
  | load => "load"
  | expand => "expand"
  | join => "join"
  | filterMarked => "filter_marked"
  | filtered => "filtered"
  | groupMarked => "group_marked"
  | grouped => "grouped"
  | havingMarked => "having_marked"
  | result => "result"

/-- The kind of step with a given name. -/
def ofName? (s : String) : Option StepKind :=
  all.find? (·.name == s)

theorem ofName?_name (k : StepKind) : ofName? k.name = some k := by
  cases k <;> decide +kernel

end StepKind

namespace Step

def toJson (s : Step) : Json :=
  .record [("kind", .text s.kind.name), ("tables", .array (s.tables.map Annotated.toJson))]

def ofJson? (j : Json) : Option Step := do
  match ← j.fields? false ["kind", "tables"] with
  | [some kind, some tables] =>
    let kind ← StepKind.ofName? (← kind.word?)
    let tables ← (← tables.items?).mapM Annotated.ofJson?
    return ⟨kind, tables⟩
  | _ => none

end Step

end QueryTrace

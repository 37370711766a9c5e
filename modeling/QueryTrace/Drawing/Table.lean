/-
Drawings of tables and steps.

A table whose rows are labelled one by one gets a column for the labels in front; the label of a
table as a whole stands above its box.  A step is a heading and its tables side by side.

* `tableBlock_length` — a table is drawn in one line for each row and four more, or five with a
  label above.
-/
import QueryTrace.Drawing.Beside

namespace QueryTrace.Drawing

/-- The text of a label. -/
def labelText : Label → String
  | .kept => "kept"
  | .rejected => "rejected"
  | .group id => "g" ++ toString id
  | .source index => "#" ++ toString index

/-- The texts of the cells of a table. -/
def cellTexts (t : Table) : List (List String) :=
  t.rows.map fun row => row.map Value.display

/-- The text of the label of a row, if it has one. -/
def rowLabelText (t : Annotated) (i : Nat) : String :=
  ((t.labelOfRow i).map labelText).getD ""

/-- The box of a table, with a column for labels if its rows have labels of their own. -/
def tableBox (t : Annotated) : List String :=
  if t.rowLabels.isSome then
    box ("" :: t.table.columns)
      ((cellTexts t.table).zipIdx.map fun (cells, i) => rowLabelText t i :: cells)
  else box t.table.columns (cellTexts t.table)

/-- The number of lines in a box above its first row. -/
def headingLines : Nat := 3

/-- The label that colours a line of the box: that of the row, or else that of the table. -/
def lineLabel (t : Annotated) (i : Nat) : Option Label :=
  if headingLines ≤ i ∧ i - headingLines < t.table.rows.length then t.labelOfRow (i - headingLines)
  else t.label

/-- The line above the box of a table that is labelled as a whole. -/
def captionLines (t : Annotated) : Block :=
  match t.label with
  | some label => [⟨"[" ++ labelText label ++ "]", some label⟩]
  | none => []

/-- The lines of a table. -/
def tableBlock (t : Annotated) : Block :=
  captionLines t ++ (tableBox t).zipIdx.map fun (text, i) => ⟨text, lineLabel t i⟩

theorem tableBlock_length (t : Annotated) :
    (tableBlock t).length = (captionLines t).length + (t.table.rows.length + 4) := by
  simp only [tableBlock, tableBox, List.length_append, List.length_map, List.length_zipIdx]
  split <;> simp [box_length, cellTexts]

/-- A table with its labels. -/
def drawAnnotated (colour : Bool) (t : Annotated) : String :=
  beside colour [tableBlock t]

/-- A table without labels. -/
def drawTable (t : Table) : String :=
  drawAnnotated false (.plain t)

/-- A result of the store, with the number of its rows. -/
def drawResult (t : Table) : String :=
  "\n".intercalate (box t.columns (cellTexts t)) ++ "\n(" ++ toString t.rows.length ++ " row" ++
    (if t.rows.length = 1 then "" else "s") ++ ")"

/-- A step; `index` counts from zero. -/
def drawStep (colour : Bool) (s : Step) (index total : Nat) : String :=
  let heading := "Step " ++ toString (index + 1) ++ "/" ++ toString total ++ ": " ++ s.kind.title
  let body := if s.tables.isEmpty then "(no tables)" else beside colour (s.tables.map tableBlock)
  embolden colour heading ++ "\n" ++ body

/-- All steps of a trace. -/
def drawSteps (colour : Bool) (steps : List Step) : List String :=
  steps.zipIdx.map fun (s, i) => drawStep colour s i steps.length

end QueryTrace.Drawing

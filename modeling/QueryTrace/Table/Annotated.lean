/-
Tables with labels, and the steps of a trace.

A label says what becomes of a row, which group it is in, or which row it was copied from.  The
rows of a table may be labelled one by one, and the table may have a label as a whole.

* `labelOfRow_of_rowLabels` — a row's own label comes before that of its table.
-/
import QueryTrace.Table.Basic

namespace QueryTrace

/-- What is said of a row or of a whole table. -/
inductive Label where
  | kept
  | rejected
  /-- The number of the group. -/
  | group (id : Nat)
  /-- The index of the row that was copied. -/
  | source (index : Nat)
  deriving DecidableEq, Repr

/-- A table with labels. -/
structure Annotated where
  table : Table
  /-- The label of the table as a whole. -/
  label : Option Label := none
  /-- The labels of the rows, if they have labels of their own. -/
  rowLabels : Option (List Label) := none
  deriving Repr

namespace Annotated

/-- A table without labels. -/
def plain (t : Table) : Annotated :=
  { table := t }

/-- A table with a label for each row. -/
def withRowLabels (t : Table) (labels : List Label) : Annotated :=
  { table := t, rowLabels := some labels }

/-- A table with a label as a whole. -/
def withLabel (t : Table) (label : Label) : Annotated :=
  { table := t, label := some label }

/-- The label of a row: its own, or else that of its table. -/
def labelOfRow (t : Annotated) (i : Nat) : Option Label :=
  (t.rowLabels.bind (·[i]?)).or t.label

theorem labelOfRow_of_rowLabels {t : Annotated} {labels : List Label} {label : Label} {i : Nat}
    (h : t.rowLabels = some labels) (hi : labels[i]? = some label) :
    t.labelOfRow i = some label := by
  simp [labelOfRow, h, hi]

end Annotated

/-- The rows that share a key. -/
structure RowGroup where
  key : String
  /-- The indices of the rows. -/
  members : List Nat
  deriving DecidableEq, Repr

/-- What a step of a trace shows. -/
inductive StepKind where
  | load | expand | join | filterMarked | filtered | groupMarked | grouped | havingMarked | result
  deriving DecidableEq, Repr

namespace StepKind

/-- The kinds of step in the order in which they come. -/
def all : List StepKind :=
  [load, expand, join, filterMarked, filtered, groupMarked, grouped, havingMarked, result]

/-- The heading of a step. -/
def title : StepKind → String
  | load => "Input tables"
  | expand => "Expanded for cartesian product"
  | join => "Joined table"
  | filterMarked => "WHERE: kept and rejected rows"
  | filtered => "WHERE: kept rows"
  | groupMarked => "GROUP BY: rows by group"
  | grouped => "GROUP BY: groups"
  | havingMarked => "HAVING: kept and rejected groups"
  | result => "Result"

end StepKind

/-- A step of a trace, with the tables that it shows side by side. -/
structure Step where
  kind : StepKind
  tables : List Annotated
  deriving Repr

end QueryTrace

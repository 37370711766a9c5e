/-
Colours of labels.

Tinted text stands between two control sequences of the terminal: the first names the colour, the
second ends it.  Bold text is marked in the same way.

* `paint_plain` — without colour, text stays as it is, whatever its label.
-/
import QueryTrace.Table.Annotated

namespace QueryTrace.Drawing

/-- The numbers of the terminal's colours. -/
inductive Colour where
  | red | green | yellow | blue | magenta | cyan
  deriving DecidableEq, Repr

/-- The number by which the terminal knows a colour. -/
def Colour.code : Colour → Nat
  | red => 1
  | green => 2
  | yellow => 3
  | blue => 4
  | magenta => 5
  | cyan => 6

/-- The colour of the group with a given number; the colours repeat. -/
def groupColour (id : Nat) : Colour :=
  match id % 5 with
  | 0 => .cyan
  | 1 => .yellow
  | 2 => .magenta
  | 3 => .blue
  | _ => .green

/-- The colour of a label.  Copied rows have two colours by turns. -/
def labelColour : Label → Colour
  | .kept => .green
  | .rejected => .red
  | .group id => groupColour id
  | .source index => if index % 2 = 0 then .cyan else .blue

/-- The text between the control sequences that begin and end an effect. -/
def withEffect (effect text : String) : String :=
  "\x1b[" ++ effect ++ "m" ++ text ++ "\x1b[0m"

/-- Text in a colour. -/
def tint (colour : Colour) (text : String) : String :=
  withEffect ("38;5;" ++ toString colour.code) text

/-- Text in the colour of its label, if it has one and colours are wanted. -/
def paint (colour : Bool) (label : Option Label) (text : String) : String :=
  match label with
  | some l => if colour then tint (labelColour l) text else text
  | none => text

theorem paint_plain (label : Option Label) (text : String) : paint false label text = text := by
  cases label <;> rfl

/-- Bold text, if effects are wanted. -/
def embolden (colour : Bool) (text : String) : String :=
  if colour then withEffect "1" text else text

end QueryTrace.Drawing

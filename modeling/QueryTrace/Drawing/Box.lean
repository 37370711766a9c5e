/-
Boxes around tables of text.

A box has a rule, the heading, a rule, the rows and a rule.  Every column is as wide as its widest
entry, with a blank on either side.

* `pad_length` — padding brings a text to a width, and never cuts it;
* `box_length` — a box has one line for each row and four more;
* `widen_length` — a row adds no columns.

Design notes: width counts characters.  Cells beyond the last column are not drawn, and a row that
is too short ends early.
-/
namespace QueryTrace.Drawing

/-- The text with blanks behind it up to a width. -/
def pad (width : Nat) (text : String) : String :=
  text ++ String.ofList (List.replicate (width - text.length) ' ')

theorem pad_length (width : Nat) (text : String) :
    (pad width text).length = max width text.length := by
  simp only [pad, String.length_append, String.length_ofList, List.length_replicate]
  omega

/-- The widths of columns when one more row is to fit. -/
def widen : List Nat → List String → List Nat
  | w :: ws, cell :: cells => max w cell.length :: widen ws cells
  | ws, _ => ws

theorem widen_length (ws : List Nat) (cells : List String) :
    (widen ws cells).length = ws.length := by
  induction ws generalizing cells with
  | nil => cases cells <;> rfl
  | cons w ws ih => cases cells <;> simp [widen, ih]

/-- The widths of the columns of a box. -/
def widths (heading : List String) (rows : List (List String)) : List Nat :=
  rows.foldl widen (heading.map String.length)

/-- The line above and below the rows. -/
def rule (ws : List Nat) : String :=
  "+" ++ "+".intercalate (ws.map fun w => String.ofList (List.replicate (w + 2) '-')) ++ "+"

/-- The line of a row. -/
def rowLine (ws : List Nat) (cells : List String) : String :=
  "|" ++ "|".intercalate (cells.zipWith (fun cell w => " " ++ pad w cell ++ " ") ws) ++ "|"

/-- The lines of a box around a heading and rows. -/
def box (heading : List String) (rows : List (List String)) : List String :=
  let ws := widths heading rows
  [rule ws, rowLine ws heading, rule ws] ++ rows.map (rowLine ws) ++ [rule ws]

theorem box_length (heading : List String) (rows : List (List String)) :
    (box heading rows).length = rows.length + 4 := by
  simp only [box, List.length_append, List.length_cons, List.length_nil, List.length_map]
  omega

end QueryTrace.Drawing

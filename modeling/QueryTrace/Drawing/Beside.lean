/-
Blocks of lines next to each other.

The tops of the blocks are level.  Each line is padded to the width of its block before it is
painted, a block that has ended goes on with blanks, and blanks at the end of a line are dropped.

* `blockWidth_ge` — a block is at least as wide as each of its lines.
-/
import QueryTrace.Drawing.Box
import QueryTrace.Drawing.Tint
import QueryTrace.Text.Blank

namespace QueryTrace.Drawing

/-- A line and the label that gives it its colour. -/
structure Line where
  text : String
  label : Option Label := none
  deriving Repr

/-- Lines below each other. -/
abbrev Block := List Line

/-- The width of the widest line. -/
def blockWidth (b : Block) : Nat :=
  b.foldl (fun w line => max w line.text.length) 0

theorem le_foldl_max (b : Block) (w : Nat) :
    w ≤ b.foldl (fun w line => max w line.text.length) w := by
  induction b generalizing w with
  | nil => exact Nat.le_refl w
  | cons line b ih => exact Nat.le_trans (Nat.le_max_left _ _) (ih _)

theorem blockWidth_ge {b : Block} {line : Line} (h : line ∈ b) :
    line.text.length ≤ blockWidth b := by
  unfold blockWidth
  generalize 0 = w
  induction b generalizing w with
  | nil => simp at h
  | cons first b ih =>
    rcases List.mem_cons.mp h with rfl | h
    · exact Nat.le_trans (Nat.le_max_right _ _) (le_foldl_max b _)
    · exact ih h _

/-- The number of lines of the longest block. -/
def height (blocks : List Block) : Nat :=
  blocks.foldl (fun h b => max h b.length) 0

/-- What goes between two blocks. -/
def between : String := "   "

/-- The part of a line that a block fills. -/
def segment (colour : Bool) (b : Array Line) (width i : Nat) : String :=
  match b[i]? with
  | some line => paint colour line.label (pad width line.text)
  | none => pad width ""

/-- The lines of several blocks next to each other. -/
def besideLines (colour : Bool) (blocks : List Block) : List String :=
  let stored := blocks.map fun b => (b.toArray, blockWidth b)
  (List.range (height blocks)).map fun i =>
    Text.trimEndText (between.intercalate (stored.map fun (b, width) => segment colour b width i))

/-- The text of several blocks next to each other. -/
def beside (colour : Bool) (blocks : List Block) : String :=
  "\n".intercalate (besideLines colour blocks)

end QueryTrace.Drawing

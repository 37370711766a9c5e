/-
The product of the listed tables.

A query with several tables is about all combinations of their rows.  The later a table is listed,
the faster its rows vary: the rows of the first table are repeated in long runs, those of the last
one follow each other.

* `productSize` is the number of combinations, or the reason why there are too many;
* `copies_length` — every table is expanded to the size of the product;
* `load` reads the tables, and `join` puts them together.

Design notes: the size is multiplied up from the first table on, and the multiplication stops as
soon as a partial product does not fit in 64 bits, whatever tables are to follow.
-/
import QueryTrace.Statement.Basic
import QueryTrace.Trace.Run

namespace QueryTrace.Trace

/-- Reads the listed tables, each with its columns qualified. -/
def load (s : Setting) (entries : List (Aliased String)) : Run (List Table) :=
  entries.mapM fun entry => do
    let t ← Run.fetch s entry.item
    Run.checkTime s
    return t.qualified entry.displayName

/-! ### The size of a product -/

/-- The product so far times the rows of one more table. -/
def timesRows (size : Nat) (t : Table) : Except ResourceError Nat :=
  if size * t.rows.length < UInt64.size then .ok (size * t.rows.length) else .error .productOverflow

/-- The number of rows of the product, if it is within the limits. -/
def productSize (limits : Limits) (tables : List Table) : Except ResourceError Nat := do
  let size ← tables.foldlM timesRows 1
  match limits.maxProductRows with
  | some limit => if limit < size then .error (.productTooLarge size limit) else .ok size
  | none => .ok size

/-! ### Expansion -/

/-- How often a row is repeated in one run, given the run length of the table before. -/
def runLength (before : Nat) (t : Table) : Nat :=
  if t.rows.length = 0 then before else before / t.rows.length

/-- The indices of the rows that a table contributes, when each is repeated `run` times. -/
def copies (size run rows : Nat) : List Nat :=
  -- the run length is zero only if the product has no rows
  (List.range size).map fun i => i / max run 1 % rows

theorem copies_length (size run rows : Nat) : (copies size run rows).length = size := by
  simp [copies]

/-- A table with its rows repeated, each labelled with the index it had. -/
def expandTable (size run : Nat) (t : Table) : Annotated :=
  let indices := copies size run t.rows.length
  .withRowLabels (t.selectRows indices) (indices.map .source)

/-- The tables expanded to the size of the product. -/
def expand (s : Setting) (size : Nat) : Nat → List Table → Run (List Annotated)
  | _, [] => pure []
  | before, t :: tables => do
    Run.keepPaceOver s size
    let more ← expand s size (runLength before t) tables
    return expandTable size (runLength before t) t :: more

/-- The rows of several tables put next to each other. -/
def joinRows (size : Nat) (tables : List Table) : List Row :=
  let stored := tables.map (·.rows.toArray)
  (List.range size).map fun i => stored.flatMap fun rows => rows[i]?.getD []

/-- The product of several tables, with the steps that show how it comes about. -/
def joinAll (s : Setting) (tables : List Table) : Run (Table × List Step) := do
  let size ← Run.ofExcept .resource (productSize s.limits tables)
  let expanded ← expand s size size tables
  Run.keepPaceOver s size
  let joined ← Run.ofExcept .evaluation
    (Table.checked (tables.flatMap (·.columns)) (joinRows size (expanded.map (·.table))))
  return (joined, [⟨.expand, expanded⟩, ⟨.join, [.plain joined]⟩])

/-- A table whose rows are labelled with their indices. -/
def numbered (t : Table) : Annotated :=
  .withRowLabels t ((List.range t.rows.length).map .source)

/-- The table that a query is about, with the steps up to it. -/
def join (s : Setting) (tables : List Table) : Run (Table × List Step) :=
  match tables with
  | [t] => pure (t, [⟨.load, [.plain t]⟩])
  | _ => do
    let (joined, steps) ← joinAll s tables
    return (joined, ⟨.load, tables.map numbered⟩ :: steps)

end QueryTrace.Trace

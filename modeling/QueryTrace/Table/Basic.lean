/-
Tables.

A table is a list of column names and a list of rows.  A table is rectangular when every row has
one value for each column; `Table.checked` makes rectangular tables only and names the first row
that is too short or too long.

* `checked_eq_ok_iff` — what `checked` accepts;
* `qualified_rectangular` and `selectRows_rectangular` — the operations keep a table rectangular;
* `selectRows_eq` — rows are picked by index, and an index without a row picks none.
-/
import QueryTrace.Failure
import QueryTrace.Value

namespace QueryTrace

/-- Named columns and rows of values. -/
structure Table where
  columns : List String
  rows : List Row
  deriving Repr, Inhabited

namespace Table

/-- Has every row one value for each column? -/
def Rectangular (t : Table) : Prop :=
  ∀ row ∈ t.rows, row.length = t.columns.length

/-- The first row that has not the given number of values, with its index. -/
def firstRagged (columns : Nat) (rows : List Row) : Option (Row × Nat) :=
  rows.zipIdx.find? fun (row, _) => row.length != columns

/-- The table of the given columns and rows, if it is rectangular. -/
def checked (columns : List String) (rows : List Row) : Except EvalError Table :=
  match firstRagged columns.length rows with
  | some (row, i) => .error (.ragged i row.length columns.length)
  | none => .ok ⟨columns, rows⟩

theorem firstRagged_eq_none_iff {columns : Nat} {rows : List Row} :
    firstRagged columns rows = none ↔ ∀ row ∈ rows, row.length = columns := by
  simp only [firstRagged, List.find?_eq_none, bne_iff_ne, ne_eq, Decidable.not_not, Prod.forall]
  constructor
  · intro h row hr
    obtain ⟨i, hi, rfl⟩ := List.mem_iff_getElem.mp hr
    exact h _ i (by simp [List.mem_zipIdx_iff_getElem?])
  · intro h row i hi
    exact h row (List.fst_mem_of_mem_zipIdx hi)

theorem checked_eq_ok_iff {columns : List String} {rows : List Row} {t : Table} :
    checked columns rows = .ok t ↔ t = ⟨columns, rows⟩ ∧ t.Rectangular := by
  unfold checked
  split
  · next row i h =>
    constructor
    · intro h'
      simp at h'
    · rintro ⟨rfl, hr⟩
      rw [firstRagged_eq_none_iff.mpr hr] at h
      simp at h
  · next h =>
    simp only [Except.ok.injEq, eq_comm, iff_self_and]
    rintro rfl
    exact firstRagged_eq_none_iff.mp h

/-- The table without rows. -/
def empty (columns : List String) : Table :=
  ⟨columns, []⟩

/-- The table with a name and a point in front of each column. -/
def qualified (name : String) (t : Table) : Table :=
  ⟨t.columns.map fun c => name ++ "." ++ c, t.rows⟩

/-- The rows at the given indices, in the order of the indices. -/
def selectRows (t : Table) (indices : List Nat) : Table :=
  let stored := t.rows.toArray
  ⟨t.columns, indices.filterMap fun i => stored[i]?⟩

theorem selectRows_eq (t : Table) (indices : List Nat) :
    t.selectRows indices = ⟨t.columns, indices.filterMap fun i => t.rows[i]?⟩ := by
  simp [selectRows]

theorem empty_rectangular (columns : List String) : (empty columns).Rectangular := by
  simp [Rectangular, empty]

theorem qualified_rectangular {t : Table} (h : t.Rectangular) (name : String) :
    (t.qualified name).Rectangular := by
  simpa [Rectangular, qualified] using h

theorem selectRows_rectangular {t : Table} (h : t.Rectangular) (indices : List Nat) :
    (t.selectRows indices).Rectangular := by
  intro row hr
  rw [selectRows_eq] at hr ⊢
  obtain ⟨i, -, hi⟩ := List.mem_filterMap.mp hr
  exact h row (List.mem_of_getElem? hi)

end Table

end QueryTrace

/-
How tables are made.

A table is made of columns and rows, which are checked, or without rows, or from another table, or
it is read from a text.  All ways but the last keep tables rectangular.  What is read is not
checked, so whether all tables are rectangular depends on what the texts hold.

* `FoundIn text t` — the text is that of the table, or of a step or of steps that show it;
* `Made Accepted t` — the table is made in any number of these ways, where only accepted texts are
  read;
* **`made_rectangular_iff`** — all tables that are made are rectangular if and only if all those in
  accepted texts are;
* `foundIn_encode` — each table has a text, whether it is rectangular or not, and `made_uneven`
  is a table that is not.
-/
import QueryTrace.Proofs.Lossless

namespace QueryTrace.Table

/-- Does the text hold the table, by itself or in a step? -/
inductive FoundIn (text : String) : Table → Prop where
  | alone {t : Table} (h : Form.table.decode? text = some t) : FoundIn text t
  | inStep {s : Step} {t : Annotated} (h : Form.step.decode? text = some s)
    (ht : t ∈ s.tables) : FoundIn text t.table
  | inSteps {steps : List Step} {s : Step} {t : Annotated}
    (h : (Form.list Form.step).decode? text = some steps) (hs : s ∈ steps)
    (ht : t ∈ s.tables) : FoundIn text t.table

/-- Is the table made by these operations, and by reading none but accepted texts? -/
inductive Made (Accepted : String → Prop) : Table → Prop where
  | checked {columns : List String} {rows : List Row} {t : Table}
    (h : checked columns rows = .ok t) : Made Accepted t
  | empty (columns : List String) : Made Accepted (empty columns)
  | read {text : String} {t : Table} (htext : Accepted text) (h : FoundIn text t) :
    Made Accepted t
  | qualified (name : String) {t : Table} (h : Made Accepted t) : Made Accepted (t.qualified name)
  | selectRows (indices : List Nat) {t : Table} (h : Made Accepted t) :
    Made Accepted (t.selectRows indices)

section Tables

variable {Accepted : String → Prop}

/-- What is made of rectangular tables is rectangular. -/
theorem Made.rectangular (htexts : ∀ text, Accepted text → ∀ t, FoundIn text t → t.Rectangular)
    {t : Table} (h : Made Accepted t) : t.Rectangular := by
  induction h with
  | checked h =>
    obtain ⟨rfl, hrect⟩ := checked_eq_ok_iff.mp h
    exact hrect
  | empty columns => exact empty_rectangular columns
  | read htext h => exact htexts _ htext _ h
  | qualified name _ ih => exact qualified_rectangular ih name
  | selectRows indices _ ih => exact selectRows_rectangular ih indices

/-- All tables that are made are rectangular if and only if all those in accepted texts are. -/
theorem made_rectangular_iff (Accepted : String → Prop) :
    (∀ t, Made Accepted t → t.Rectangular) ↔
      ∀ text, Accepted text → ∀ t, FoundIn text t → t.Rectangular :=
  ⟨fun h _ htext t ht => h t (.read htext ht), fun h _ ht => ht.rectangular h⟩

end Tables

/-- The text of a table holds the table, whatever the lengths of its rows. -/
theorem foundIn_encode {t : Table} (h : ∀ r ∈ Form.table.reals t, r.isFinite = true ∧ Regained r) :
    FoundIn (Form.table.encode Json.compact t) t := by
  refine .alone ?_
  rw [Form.decode?_encode Form.lawful_table Json.isBlank_compact]
  exact (Form.lawful_table.reads_iff t).mpr ⟨trivial, h⟩

/-- A table of one column, with a row of two values and one of none. -/
def uneven : Table :=
  ⟨["a"], [[.integer 1, .integer 2], []]⟩

example : Form.table.encode Json.compact uneven =
    "\x7b\"columns\":[\"a\"],\"rows\":[[1,2],[]]\x7d" := by
  decide +kernel

/-- Where every text is accepted, tables are made that are not rectangular. -/
theorem made_uneven : Made (fun _ => True) uneven ∧ ¬ uneven.Rectangular := by
  refine ⟨.read trivial (foundIn_encode (t := uneven) nofun), fun h => ?_⟩
  exact absurd (h [] (List.mem_cons_of_mem _ List.mem_cons_self)) (by decide)

end QueryTrace.Table

/-
A place among the steps of a trace.

The place is always one of the steps, or zero if there are none: moving beyond either end stays at
that end.

* `ofSteps_wellPlaced`, `next_wellPlaced`, `prev_wellPlaced` and `seek_wellPlaced` — every way to
  get a cursor gives one that is well placed.
-/
import QueryTrace.Table.Annotated

namespace QueryTrace

/-- Steps and the index of one of them. -/
structure Cursor where
  steps : List Step := []
  position : Nat := 0
  deriving Repr, Inhabited

namespace Cursor

/-- Is there a step at the position, as far as there are steps at all? -/
def WellPlaced (c : Cursor) : Prop :=
  c.position < c.steps.length ∨ c.position = 0 ∧ c.steps = []

/-- At the first of some steps. -/
def ofSteps (steps : List Step) : Cursor :=
  { steps }

/-- The step at the position. -/
def current (c : Cursor) : Option Step :=
  c.steps[c.position]?

/-- One step further, if there is one. -/
def next (c : Cursor) : Cursor :=
  if c.position + 1 < c.steps.length then { c with position := c.position + 1 } else c

/-- One step back, if there is one. -/
def prev (c : Cursor) : Cursor :=
  { c with position := c.position - 1 }

/-- At a given index, or at the last step if there are not that many. -/
def seek (index : Nat) (c : Cursor) : Cursor :=
  { c with position := min index (c.steps.length - 1) }

theorem ofSteps_wellPlaced (steps : List Step) : (ofSteps steps).WellPlaced := by
  cases steps with
  | nil => exact .inr ⟨rfl, rfl⟩
  | cons s steps => exact .inl (Nat.zero_lt_succ _)

theorem next_wellPlaced {c : Cursor} (h : c.WellPlaced) : c.next.WellPlaced := by
  unfold next
  split
  · next hlt => exact .inl hlt
  · exact h

theorem prev_wellPlaced {c : Cursor} (h : c.WellPlaced) : c.prev.WellPlaced := by
  rcases h with h | ⟨hp, hs⟩
  · exact .inl (Nat.lt_of_le_of_lt (Nat.sub_le _ _) h)
  · exact .inr ⟨by simp [prev, hp], hs⟩

theorem seek_wellPlaced (index : Nat) (c : Cursor) : (c.seek index).WellPlaced := by
  by_cases h : c.steps = []
  · exact .inr ⟨by simp [seek, h], h⟩
  · have := List.length_pos_iff.mpr h
    exact .inl (by simp only [seek]; omega)

end Cursor

end QueryTrace

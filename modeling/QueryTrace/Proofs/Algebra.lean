/-
Relational algebra without a trace.

This file says what the result of a query is, in the words of relational algebra and without
labels, indices, limits or a clock.  It is what the last step of a trace is compared with.

* `Relational.product` is the nested loop over the rows of the listed tables, the last table varying
  fastest, and `product_length` counts its rows;
* `Relational.classes` gathers rows of equal keys, in the order in which the keys come first;
* `Relational.result` is the tables that a query results in, or the failure that keeps it from one.
-/
import QueryTrace.Proofs.Outcome
import QueryTrace.Trace.Basic

namespace QueryTrace.Relational

/-! ### Tables -/

/-- A table as the store has it, if its rows are as long as its list of columns. -/
def stored (store : Catalogue) (name : String) : Except Failure Table :=
  match store ("SELECT * FROM " ++ name ++ ";") with
  | .error message => .error (.store message)
  | .ok [] => .error (.store ("no result set for table " ++ name))
  | .ok (t :: _) =>
    match Table.firstRagged t.columns.length t.rows with
    | some (row, i) => .error (.evaluation (.ragged i row.length t.columns.length))
    | none => .ok t

/-- A listed table, with the name it goes by and a point in front of each column. -/
def source (store : Catalogue) (entry : Aliased String) : Except Failure Table := do
  let t ← stored store entry.item
  return ⟨t.columns.map fun c => entry.displayName ++ "." ++ c, t.rows⟩

/-- All rows made of one row from each table, by nested loops. -/
def product : List Table → List Row
  | [] => [[]]
  | t :: ts => t.rows.flatMap fun row => (product ts).map fun more => row ++ more

/-- The product as a table. -/
def joined (ts : List Table) : Table :=
  ⟨ts.flatMap (·.columns), product ts⟩

/-- The number of rows of the product. -/
def size : List Table → Nat
  | [] => 1
  | t :: ts => t.rows.length * size ts

/-- Does every running product of row counts, from the first table on, fit in 64 bits? -/
def SizesFit (ts : List Table) : Prop :=
  ∀ k ≤ ts.length, size (ts.take k) < UInt64.size

theorem stored_rectangular {store : Catalogue} {name : String} {t : Table}
    (h : stored store name = .ok t) : t.Rectangular := by
  unfold stored at h
  split at h
  · cases h
  · cases h
  · split at h
    · cases h
    · next hr =>
      cases h
      exact Table.firstRagged_eq_none_iff.mp hr

theorem source_eq_ok_iff {store : Catalogue} {entry : Aliased String} {t : Table} :
    source store entry = .ok t ↔
      ∃ u, stored store entry.item = .ok u ∧ t = u.qualified entry.displayName := by
  rw [source, except_bind_eq_ok]
  constructor
  · rintro ⟨u, hu, ⟨⟩⟩
    exact ⟨u, hu, rfl⟩
  · rintro ⟨u, hu, rfl⟩
    exact ⟨u, hu, rfl⟩

theorem source_rectangular {store : Catalogue} {entry : Aliased String} {t : Table}
    (h : source store entry = .ok t) : t.Rectangular := by
  obtain ⟨u, hu, rfl⟩ := source_eq_ok_iff.mp h
  exact Table.qualified_rectangular (stored_rectangular hu) entry.displayName

theorem product_length (ts : List Table) : (product ts).length = size ts := by
  induction ts with
  | nil => rfl
  | cons t ts ih =>
    rw [product, List.length_flatMap]
    simp only [List.length_map, ih, List.map_const', List.sum_replicate_nat, size]

theorem product_row_length {ts : List Table} (h : ∀ t ∈ ts, t.Rectangular) {row : Row}
    (hr : row ∈ product ts) : row.length = (ts.flatMap (·.columns)).length := by
  induction ts generalizing row with
  | nil => simp_all [product]
  | cons t ts ih =>
    simp only [product, List.mem_flatMap, List.mem_map] at hr
    obtain ⟨first, hf, more, hm, rfl⟩ := hr
    rw [List.length_append, h t (by simp) first hf, ih (fun u hu => h u (by simp [hu])) hm]
    simp

/-! ### Rows and classes of rows -/

/-- The items of a list for which a test holds, if the test can be made for all. -/
def keep {ε α : Type} (test : α → Except ε Bool) : List α → Except ε (List α)
  | [] => .ok []
  | a :: l => do
    let holds ← test a
    let rest ← keep test l
    return if holds then a :: rest else rest

/-- The rows on which the condition is true. -/
def restrict (aliases : List (Aliased Expr)) (condition : Option Expr) (t : Table) :
    Except EvalError Table :=
  match condition with
  | none => .ok t
  | some condition => do
    let scope : Scope := { columns := t.columns, aliases }
    let rows ← keep (fun row => do return (← scope.evaluate condition row).truthy) t.rows
    return ⟨t.columns, rows⟩

/-- Rows with equal keys together, one class behind the other as their first rows come. -/
def classes : List (String × Row) → List (List Row)
  | [] => []
  | (key, row) :: rest =>
    (row :: (rest.filter fun r => r.1 == key).map (·.2)) ::
      classes (rest.filter fun r => !r.1 == key)
termination_by rows => rows.length
decreasing_by
  simp only [List.unattach_filter, List.unattach_attach, List.length_cons]
  exact Nat.lt_succ_of_le (List.length_filter_le _ rest)

/-- The text that decides about the class of a row. -/
def keyText (scope : Scope) (exprs : List Expr) (row : Row) : Except EvalError String := do
  let values ← exprs.mapM fun e => scope.evaluate e row
  return "-------".intercalate (values.map Value.display)

/-- One table for each class of rows, or the table itself if rows are not grouped. -/
def group (aliases : List (Aliased Expr)) (exprs : Option (List Expr)) (t : Table) :
    Except EvalError (List Table) :=
  match exprs with
  | none => .ok [t]
  | some exprs => do
    let scope : Scope := { columns := t.columns, aliases }
    let keyed ← t.rows.mapM fun row => do return (← keyText scope exprs row, row)
    return (classes keyed).map fun rows => ⟨t.columns, rows⟩

/-- Is the condition true of a class?  Its last row speaks for it, or a row of nulls if it has no
rows. -/
def holdsOf (aliases : List (Aliased Expr)) (condition : Expr) (t : Table) :
    Except EvalError Bool := do
  let scope : Scope := { columns := t.columns, aliases, group := some t.rows }
  let row := match t.rows.getLast? with
    | some row => row
    | none => List.replicate t.columns.length .null
  return (← scope.evaluate condition row).truthy

/-- The classes of which the condition is true. -/
def choose (aliases : List (Aliased Expr)) (condition : Option Expr) (ts : List Table) :
    Except EvalError (List Table) :=
  match condition with
  | none => .ok ts
  | some condition => keep (holdsOf aliases condition) ts

/-- The tables that a query results in. -/
def result (store : Catalogue) (q : Select) : Except Failure (List Table) := do
  let tables ← q.tables.mapM (source store)
  let classes : Except EvalError (List Table) := do
    let rows ← restrict q.columns q.filter (joined tables)
    let groups ← group q.columns q.groupBy rows
    choose q.columns q.having groups
  classes.mapError .evaluation

end QueryTrace.Relational

/-
Rows as records.

A row of a table whose columns have distinct names is a record: each name has a cell, and the order
of the columns is only one way to write the record down.  The records of a product do not depend on
the order of its tables, apart from the order in which they come.

* **`records_perm`** — if `ts'` is a rearrangement of `ts`, then the rows of `product ts'` and of
  `product ts` are the same records, each as often in one as in the other;
* **`rows_perm_of_records`** — rows that are the same records differ by the order of the rows and
  of the columns only.

Design notes: rows of two products cannot be compared as lists of cells, since the cells stand at
other places.  Records are functions of the name, so the two rows that are made of the same picks
are one record, and `records_perm` is a plain induction on the rearrangement.
-/
import Mathlib.Data.List.Nodup
import Mathlib.Data.List.Perm.Basic
import QueryTrace.Proofs.Resolution

namespace QueryTrace.Relational

/-! ### Records -/

/-- The cell in the column of a given name. -/
def record (columns : List String) (row : Row) : String → Option Value :=
  fun name => (columns.zip row).lookup name

/-- The record that has the cells of the first one, and those of the second one besides. -/
def beside (f g : String → Option Value) : String → Option Value :=
  fun name => (f name).or (g name)

/-- The same row for another order of the columns. -/
def rearrange (columns columns' : List String) (row : Row) : Row :=
  columns'.filterMap (record columns row)

section Record

variable {columns more : List String} {row rest : Row} {name : String}

theorem record_eq_none (h : name ∉ columns) (row : Row) : record columns row name = none := by
  rw [record, List.lookup_eq_none_iff]
  intro cell hcell
  rw [bne_iff_ne]
  rintro rfl
  exact h (List.of_mem_zip hcell).1

theorem record_append (hl : row.length = columns.length) :
    record (columns ++ more) (row ++ rest) = beside (record columns row) (record more rest) := by
  funext name
  rw [record, List.zip_append hl.symm, List.lookup_append]
  rfl

theorem beside_comm (h : columns.Disjoint more) (f : String → Option Value) :
    beside (record columns row) (beside (record more rest) f) =
      beside (record more rest) (beside (record columns row) f) := by
  funext name
  by_cases hn : name ∈ columns
  · simp [beside, record_eq_none (h hn) rest]
  · simp [beside, record_eq_none hn row]

/-- A row is read back from its record, as long as no two columns have one name. -/
theorem filterMap_record (hd : columns.Nodup) (hl : row.length = columns.length) :
    columns.filterMap (record columns row) = row := by
  induction columns generalizing row with
  | nil =>
    rw [List.length_nil, List.length_eq_zero_iff] at hl
    rw [hl]
    rfl
  | cons c columns ih =>
    cases row with
    | nil => simp at hl
    | cons v row =>
      obtain ⟨hc, hd⟩ := List.nodup_cons.mp hd
      have hfirst : record (c :: columns) (v :: row) c = some v := by simp [record]
      -- the names of the other columns pass the first column by
      have hothers : columns.filterMap (record (c :: columns) (v :: row)) =
          columns.filterMap (record columns row) := by
        refine List.filterMap_congr fun b hb => ?_
        have hbc : (b == c) = false := by
          rw [beq_eq_false_iff_ne]
          rintro rfl
          exact hc hb
        simp [record, List.lookup_cons, hbc]
      rw [List.filterMap_cons_some hfirst, hothers, ih hd (by simpa using hl)]

end Record

/-! ### The records of a product -/

/-- The records that the rows of the product are. -/
def records (ts : List Table) : List (String → Option Value) :=
  (product ts).map (record (joined ts).columns)

/-- Which of two loops is the outer one does not change what they come to. -/
theorem flatMap_comm_perm {α β γ : Type} (f : α → β → List γ) (l : List α) (m : List β) :
    (l.flatMap fun a => m.flatMap (f a)).Perm (m.flatMap fun b => l.flatMap fun a => f a b) := by
  induction l with
  | nil => simp
  | cons a l ih =>
    simp only [List.flatMap_cons]
    exact (ih.append_left _).trans (List.flatMap_append_perm m (f a) _)

theorem records_cons {t : Table} (ht : t.Rectangular) (ts : List Table) :
    records (t :: ts) =
      t.rows.flatMap fun row => (records ts).map (beside (record t.columns row)) := by
  rw [records, product, List.map_flatMap]
  refine List.flatMap_congr fun row hrow => ?_
  rw [records, List.map_map, List.map_map]
  refine List.map_congr_left fun rest _ => ?_
  exact record_append (ht row hrow)

/-- **The order of the tables does not matter to records.**  Rearranged tables have a product of
the same records, with the same multiplicities. -/
theorem records_perm {ts ts' : List Table} (h : ts'.Perm ts) (hr : ∀ t ∈ ts', t.Rectangular)
    (hd : ts'.Pairwise fun t u => t.columns.Disjoint u.columns) :
    (records ts').Perm (records ts) := by
  induction h with
  | nil => exact .refl _
  | cons t _ ih =>
    have ih := ih (fun u hu => hr u (by simp [hu])) (List.pairwise_cons.mp hd).2
    rw [records_cons (hr t (by simp)), records_cons (hr t (by simp))]
    exact List.Perm.flatMap_left _ fun row _ => ih.map _
  | swap t u ts =>
    have ht : t.Rectangular := hr t (by simp)
    have hu : u.Rectangular := hr u (by simp)
    have hut : u.columns.Disjoint t.columns := (List.pairwise_cons.mp hd).1 t (by simp)
    simp only [records_cons ht, records_cons hu, List.map_flatMap, List.map_map]
    refine (flatMap_comm_perm _ _ _).trans (List.Perm.of_eq ?_)
    -- the two innermost bodies put the same three records beside each other
    refine List.flatMap_congr fun row _ => List.flatMap_congr fun row' _ => ?_
    refine List.map_congr_left fun f _ => ?_
    exact beside_comm hut f
  | trans h₁ _ ih₁ ih₂ =>
    have hr₂ := fun u hu => hr u (h₁.mem_iff.mpr hu)
    have hd₂ := h₁.pairwise hd List.disjoint_symm
    exact (ih₁ hr hd).trans (ih₂ hr₂ hd₂)

/-- Rows that are the same records are the same rows, up to their order and that of the columns. -/
theorem rows_perm_of_records {columns columns' : List String} {rows rows' : List Row}
    (hd : columns'.Nodup) (hl : ∀ row ∈ rows', row.length = columns'.length)
    (h : (rows'.map (record columns')).Perm (rows.map (record columns))) :
    rows'.Perm (rows.map (rearrange columns columns')) := by
  have hback : (rows'.map (record columns')).map columns'.filterMap = rows' := by
    rw [List.map_map]
    exact List.map_congr_left (fun row hrow => filterMap_record hd (hl row hrow)) |>.trans
      (List.map_id _)
  have hread := h.map columns'.filterMap
  rw [hback, List.map_map] at hread
  exact hread

end QueryTrace.Relational

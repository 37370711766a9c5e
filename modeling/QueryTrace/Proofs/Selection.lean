/-
Rows picked by their labels.

The stages of a trace label rows first and then pick them by number.  This file shows that the rows
that are picked are those that stand beside the label, in their order.

* `rowsBeside` is the rows beside one label;
* `selectRows_keptIndices` and `selectRows_membersOf` — picking by number is picking by label;
* `keep_eq_labels` and `keep_eq_judged` — a filter is a judgement of all followed by a choice;
* `classes_zip` — classes of rows are the groups of their keys.
-/
import QueryTrace.Proofs.Algebra

namespace QueryTrace

/-- The rows that stand beside a label. -/
def rowsBeside {α : Type} [DecidableEq α] (label : α) (labels : List α) (rows : List Row) :
    List Row :=
  (labels.zip rows).filterMap fun (l, row) => if l = label then some row else none

namespace Trace

open Relational

section Places

variable {α : Type} [DecidableEq α]

theorem rowsBeside_cons (label l : α) (labels : List α) (row : Row) (rows : List Row) :
    rowsBeside label (l :: labels) (row :: rows) =
      if l = label then row :: rowsBeside label labels rows else rowsBeside label labels rows := by
  simp only [rowsBeside, List.zip_cons_cons, List.filterMap_cons]
  split <;> simp_all

/-- The numbers of a label look up the rows beside it.  The rows before the labels take part only
by shifting the numbers. -/
theorem filterMap_places (label : α) {labels : List α} {rows : List Row} (before : List Row)
    (h : labels.length = rows.length) :
    ((labels.zipIdx before.length).filterMap
      fun (l, i) => if l = label then some i else none).filterMap (fun i => (before ++ rows)[i]?) =
        rowsBeside label labels rows := by
  induction labels generalizing rows before with
  | nil => rfl
  | cons l labels ih =>
    cases rows with
    | nil => simp at h
    | cons row rows =>
      have hlen : labels.length = rows.length := by simpa using h
      -- the induction hypothesis is used with this row among those before the labels
      have hshift : before ++ row :: rows = before ++ [row] ++ rows := by simp
      have ih := ih (before ++ [row]) hlen
      rw [List.length_append, List.length_singleton, ← hshift] at ih
      rw [rowsBeside_cons, List.zipIdx_cons, List.filterMap_cons]
      by_cases hl : l = label
      · simp only [hl, if_true, List.filterMap_cons]
        rw [ih]
        simp
      · simp only [hl, if_false]
        exact ih

end Places

theorem selectRows_keptIndices {t : Table} {labels : List Label}
    (h : labels.length = t.rows.length) :
    t.selectRows (keptIndices labels) = ⟨t.columns, rowsBeside .kept labels t.rows⟩ := by
  rw [Table.selectRows_eq]
  congr 1
  exact filterMap_places .kept [] h

theorem selectRows_membersOf {t : Table} {keys : List String} (key : String)
    (h : keys.length = t.rows.length) :
    t.selectRows (membersOf keys key) = ⟨t.columns, rowsBeside key keys t.rows⟩ := by
  rw [Table.selectRows_eq]
  congr 1
  exact filterMap_places key [] h

/-- Labels may be renamed if that keeps the label apart from all others. -/
theorem rowsBeside_map {α β : Type} [DecidableEq α] [DecidableEq β] {f : α → β} {label : α}
    {label' : β} {labels : List α} (h : ∀ l ∈ labels, f l = label' ↔ l = label)
    (rows : List Row) : rowsBeside label' (labels.map f) rows = rowsBeside label labels rows := by
  induction labels generalizing rows with
  | nil => rfl
  | cons l labels ih =>
    cases rows with
    | nil => rfl
    | cons row rows =>
      have ih := ih (fun k hk => h k (by simp [hk])) rows
      rw [List.map_cons, rowsBeside_cons, rowsBeside_cons, ih]
      simp [h l (by simp)]

/-! ### Filters -/

section Filters

variable {ε α : Type} (test : α → Except ε Bool)

/-- What is kept stands beside the verdict on it. -/
theorem keep_eq_labels (test : Row → Except ε Bool) (rows : List Row) :
    keep test rows = (do
      let labels ← rows.mapM fun row => do return verdict (← test row)
      return rowsBeside .kept labels rows) := by
  induction rows with
  | nil => rfl
  | cons row rows ih =>
    rw [keep, List.mapM_cons, ih]
    cases test row with
    | error e => rfl
    | ok holds =>
      cases rows.mapM fun row => do return verdict (← test row) with
      | error e => rfl
      | ok labels => cases holds <;> rfl

/-- What is kept has a good judgement. -/
theorem keep_eq_judged (l : List α) :
    keep test l = (do
      let judged ← l.mapM fun a => do return (a, ← test a)
      return (judged.filter (·.2)).map (·.1)) := by
  induction l with
  | nil => rfl
  | cons a l ih =>
    rw [keep, List.mapM_cons, ih]
    cases test a with
    | error e => rfl
    | ok holds =>
      cases l.mapM fun a => do return (a, ← test a) with
      | error e => rfl
      | ok judged => cases holds <;> rfl

end Filters

/-! ### Classes -/

theorem nodup_eraseDups (keys : List String) : keys.eraseDups.Nodup := by
  induction h : keys.length using Nat.strongRecOn generalizing keys with
  | _ n ih =>
    cases keys with
    | nil => simp
    | cons key rest =>
      have hlen := List.length_filter_le (fun k => !k == key) rest
      rw [List.eraseDups_cons, List.nodup_cons]
      refine ⟨by simp, ih _ ?_ _ rfl⟩
      rw [← h, List.length_cons]
      omega

/-- The rows of one key do not change when rows of another key are left out. -/
theorem filterMap_filter_key {key other : String} (h : key ≠ other)
    (rows : List (String × Row)) :
    ((rows.filter fun r => !r.1 == other).filterMap
      fun (k, row) => if k = key then some row else none) =
        rows.filterMap fun (k, row) => if k = key then some row else none := by
  rw [List.filterMap_filter]
  congr 1
  funext ⟨k, row⟩
  by_cases hk : k = key
  · simp [hk, h]
  · by_cases ho : k = other
    · subst ho
      simp [hk]
    · simp [hk, ho]

theorem filterMap_key (key : String) (rows : List (String × Row)) :
    (rows.filterMap fun (k, row) => if k = key then some row else none) =
      (rows.filter fun r => r.1 == key).map (·.2) := by
  induction rows with
  | nil => rfl
  | cons r rows ih =>
    obtain ⟨k, row⟩ := r
    by_cases hk : k = key <;> simp [hk, ih]

/-- Classes of rows, one for each key that occurs. -/
theorem classes_eq (rows : List (String × Row)) :
    classes rows = (rows.map (·.1)).eraseDups.map fun key =>
      rows.filterMap fun (k, row) => if k = key then some row else none := by
  fun_induction classes rows with
  | case1 => rfl
  | case2 key row rest ih =>
    have hkeys : (rest.filter fun r => !r.1 == key).map (·.1) =
        (rest.map (·.1)).filter fun k => !k == key := by
      rw [List.filter_map]
      rfl
    simp only [List.unattach_filter, List.unattach_attach] at ih
    rw [List.map_cons, List.eraseDups_cons, List.map_cons, ih, hkeys]
    congr 1
    · simp [filterMap_key]
    -- the rows of the first key have been taken out for the classes of the other keys
    · apply List.map_congr_left
      intro k hk
      have hne : k ≠ key := by simpa using (List.mem_filter.mp (List.mem_eraseDups.mp hk)).2
      rw [filterMap_filter_key hne, List.filterMap_cons_none (by simp [Ne.symm hne])]

theorem classes_zip {keys : List String} {rows : List Row} (h : keys.length = rows.length) :
    classes (keys.zip rows) = keys.eraseDups.map fun key => rowsBeside key keys rows := by
  rw [classes_eq, List.map_fst_zip (by omega)]
  rfl

end Trace

end QueryTrace

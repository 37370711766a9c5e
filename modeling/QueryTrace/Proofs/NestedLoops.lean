/-
A product by indices is the product by nested loops.

A trace makes the product of its tables by arithmetic on row numbers: row `i` of the product takes
from each table the row `i / run % rows`, where `run` is how often a row of that table is repeated.
This file shows that the numbers come out as nested loops have it.

* `runLength_size` — the run length of a table is the size of the product of the tables behind it;
* `expandTable_row` — which row stands at which place of an expanded table;
* `getElem?_loops` and `getElem?_product` — what stands at which place of two nested loops, and
  which row at which place of all of them;
* `joinRows_expanded` — the two products are equal, whatever the tables;
* **`ensures_join_eq`** — whatever its limits, a trace joins tables to `Relational.joined`, and
  `ensures_joinAll_eq` says which steps show it.

Design notes: the row numbers of the later tables run through their product again and again, so
`getElem?_product` is about `i % size ts` for every `i`, and its induction needs no bound on `i`.
-/
import QueryTrace.Proofs.Algebra

namespace QueryTrace.Trace

open Relational

/-! ### Lists -/

section Lists

variable {α β γ : Type}

/-- If nothing is dropped, `filterMap` keeps every place. -/
theorem getElem?_filterMap_of_isSome {f : α → Option β} {l : List α}
    (h : ∀ a ∈ l, (f a).isSome = true) (i : Nat) : (l.filterMap f)[i]? = l[i]?.bind f := by
  induction l generalizing i with
  | nil => rfl
  | cons a l ih =>
    obtain ⟨b, hb⟩ := Option.isSome_iff_exists.mp (h a (by simp))
    rw [List.filterMap_cons_some hb]
    cases i with
    | zero => simp [hb]
    | succ i => simpa using ih (fun c hc => h c (by simp [hc])) i

theorem length_filterMap_of_isSome {f : α → Option β} {l : List α}
    (h : ∀ a ∈ l, (f a).isSome = true) : (l.filterMap f).length = l.length := by
  induction l with
  | nil => rfl
  | cons a l ih =>
    obtain ⟨b, hb⟩ := Option.isSome_iff_exists.mp (h a (by simp))
    rw [List.filterMap_cons_some hb]
    simp [ih fun c hc => h c (by simp [hc])]

/-- In a row of blocks of equal length, quotient and remainder find the place. -/
theorem getElem?_flatMap_of_length {f : α → List β} {n : Nat} (hn : 0 < n) {l : List α}
    (h : ∀ a ∈ l, (f a).length = n) (i : Nat) :
    (l.flatMap f)[i]? = l[i / n]?.bind fun a => (f a)[i % n]? := by
  induction l generalizing i with
  | nil => simp
  | cons a l ih =>
    have ha : (f a).length = n := h a (by simp)
    rw [List.flatMap_cons]
    by_cases hi : i < n
    · rw [List.getElem?_append_left (by omega), Nat.div_eq_of_lt hi, Nat.mod_eq_of_lt hi]
      rfl
    · have hdiv : i / n = (i - n) / n + 1 := Nat.div_eq_sub_div hn (by omega)
      have hmod : i % n = (i - n) % n := Nat.mod_eq_sub_mod (by omega)
      rw [List.getElem?_append_right (by omega), ha, ih (fun b hb => h b (by simp [hb])), hdiv,
        hmod, List.getElem?_cons_succ]

/-- A loop in a loop is in block `i / m` of the outer one, and the inner one, of `m` steps, goes
round in it. -/
theorem getElem?_loops (g : α → β → γ) (l : List α) {inner : List β} (hinner : 0 < inner.length)
    (i : Nat) :
    (l.flatMap fun a => inner.map (g a))[i % (l.length * inner.length)]? =
      l[i / inner.length % l.length]?.bind fun a => inner[i % inner.length]?.map (g a) := by
  have hlen : ∀ a ∈ l, (inner.map (g a)).length = inner.length := fun a _ => List.length_map _
  rw [getElem?_flatMap_of_length hinner hlen, Nat.mod_mul_left_div_self, Nat.mod_mul_left_mod]
  simp only [List.getElem?_map]

end Lists

/-! ### The size of the product -/

theorem foldlM_timesRows {ts : List Table} {n : Nat}
    (h : ∀ k ≤ ts.length, n * size (ts.take k) < UInt64.size) :
    ts.foldlM timesRows n = .ok (n * size ts) := by
  induction ts generalizing n with
  | nil => simp [size, pure, Except.pure]
  | cons t ts ih =>
    have hn : n * t.rows.length < UInt64.size := by
      simpa [size] using h 1 (by simp)
    rw [List.foldlM_cons, timesRows, if_pos hn, except_ok_bind, ih, size, Nat.mul_assoc]
    intro k hk
    have hk := h (k + 1) (by simpa using hk)
    rwa [List.take_succ_cons, size, ← Nat.mul_assoc] at hk

theorem size_of_foldlM_timesRows {ts : List Table} {n m : Nat}
    (h : ts.foldlM timesRows n = .ok m) : m = n * size ts := by
  induction ts generalizing n with
  | nil =>
    cases h
    simp [size]
  | cons t ts ih =>
    rw [List.foldlM_cons] at h
    obtain ⟨k, hk, h⟩ := except_bind_eq_ok.mp h
    rw [timesRows] at hk
    split at hk
    · cases hk
      rw [ih h, size, Nat.mul_assoc]
    · cases hk

/-- Whatever the limits, a size that is within them is the size of the product. -/
theorem eq_size_of_productSize {limits : Limits} {ts : List Table} {n : Nat}
    (h : productSize limits ts = .ok n) : n = size ts := by
  rw [productSize] at h
  obtain ⟨m, hm, h⟩ := except_bind_eq_ok.mp h
  have hsize := size_of_foldlM_timesRows hm
  rw [Nat.one_mul] at hsize
  cases hc : limits.maxProductRows with
  | none =>
    rw [hc] at h
    cases h
    exact hsize
  | some limit =>
    rw [hc] at h
    dsimp only at h
    split at h
    · cases h
    · cases h
      exact hsize

theorem size_eq_zero {t : Table} {ts : List Table} (ht : t ∈ ts) (h : t.rows = []) :
    size ts = 0 := by
  induction ts with
  | nil => simp at ht
  | cons u ts ih =>
    rcases List.mem_cons.mp ht with rfl | ht
    · simp [size, h]
    · simp [size, ih ht]

/-! ### The rows of nested loops -/

/-- The row made of what each table has at row number `i`. -/
def rowAt : List Table → Nat → Row
  | [], _ => []
  | t :: ts, i => t.rows[i / size ts % t.rows.length]?.getD [] ++ rowAt ts i

theorem size_cons_pos {t : Table} {ts : List Table} (h : 0 < size (t :: ts)) :
    0 < t.rows.length ∧ 0 < size ts :=
  ⟨Nat.pos_of_mul_pos_right h, Nat.pos_of_mul_pos_left h⟩

theorem getElem?_product {ts : List Table} (h : 0 < size ts) (i : Nat) :
    (product ts)[i % size ts]? = some (rowAt ts i) := by
  induction ts generalizing i with
  | nil => simp [product, rowAt, size, Nat.mod_one]
  | cons t ts ih =>
    obtain ⟨ht, hts⟩ := size_cons_pos h
    have hi : i / size ts % t.rows.length < t.rows.length := Nat.mod_lt _ ht
    have hinner : 0 < (product ts).length := by rwa [product_length]
    have hloops := getElem?_loops (fun row more : Row => row ++ more) t.rows hinner i
    rw [product_length] at hloops
    rw [product, size, hloops, List.getElem?_eq_getElem hi]
    simp [ih hts, rowAt, hi]

/-! ### The rows of expanded tables -/

/-- The tables expanded, without the looks at the clock. -/
def expanded (size : Nat) : Nat → List Table → List Annotated
  | _, [] => []
  | before, t :: ts =>
    expandTable size (runLength before t) t :: expanded size (runLength before t) ts

theorem follows_expand {s : Setting} (h : s.limits.timeBudget = none) (size before : Nat)
    (ts : List Table) :
    (expand s size before ts).Follows Eq (.ok (expanded size before ts)) := by
  induction ts generalizing before with
  | nil => exact Run.follows_pure rfl
  | cons t ts ih =>
    refine Run.follows_bind_ok (Run.follows_keepPaceOver h size) fun _ _ => ?_
    refine Run.follows_bind_ok (ih (runLength before t)) ?_
    rintro _ rfl
    exact Run.follows_pure rfl

theorem ensures_expand (s : Setting) (size before : Nat) (ts : List Table) :
    (expand s size before ts).Ensures fun out => out = expanded size before ts := by
  induction ts generalizing before with
  | nil => exact Run.ensures_pure rfl
  | cons t ts ih =>
    refine Run.ensures_bind (Run.ensures_trivial _) fun _ _ => ?_
    refine Run.ensures_bind (ih (runLength before t)) fun more hmore => ?_
    exact Run.ensures_pure (by rw [hmore, expanded])

theorem runLength_size {t : Table} {ts : List Table} (h : 0 < t.rows.length) :
    runLength (size (t :: ts)) t = size ts := by
  rw [runLength, if_neg (by omega), size, Nat.mul_div_cancel_left _ h]

/-- Every number that an expansion looks up is that of a row. -/
theorem isSome_of_mem_copies {size run : Nat} {t : Table} (ht : 0 < t.rows.length) :
    ∀ i ∈ copies size run t.rows.length, (t.rows[i]?).isSome = true := by
  intro i hi
  obtain ⟨j, -, rfl⟩ := List.mem_map.mp hi
  simpa using Nat.mod_lt _ ht

theorem expandTable_row {size run i : Nat} {t : Table} (ht : 0 < t.rows.length) (hi : i < size) :
    (expandTable size run t).table.rows[i]? = t.rows[i / max run 1 % t.rows.length]? := by
  show (t.selectRows (copies size run t.rows.length)).rows[i]? = _
  rw [Table.selectRows_eq]
  show (List.filterMap _ _)[i]? = _
  rw [getElem?_filterMap_of_isSome (isSome_of_mem_copies ht)]
  simp [copies, hi]

theorem flatMap_expanded {total i : Nat} {ts : List Table} (h : 0 < size ts) (hi : i < total) :
    (expanded total (size ts) ts).flatMap (fun t => t.table.rows[i]?.getD []) = rowAt ts i := by
  induction ts with
  | nil => rfl
  | cons t ts ih =>
    obtain ⟨ht, hts⟩ := size_cons_pos h
    rw [expanded, runLength_size ht, List.flatMap_cons, expandTable_row ht hi, ih hts, rowAt,
      Nat.max_eq_left hts]

/-- The product by row numbers is the product by nested loops. -/
theorem joinRows_expanded (ts : List Table) :
    joinRows (size ts) ((expanded (size ts) (size ts) ts).map (·.table)) = product ts := by
  apply List.ext_getElem?
  intro i
  by_cases hi : i < size ts
  · have hpos : 0 < size ts := by omega
    have hprod := getElem?_product hpos i
    rw [Nat.mod_eq_of_lt hi] at hprod
    rw [hprod, ← flatMap_expanded hpos hi]
    simp [joinRows, hi, List.flatMap_map]
  · rw [List.getElem?_eq_none (by simp [joinRows]; omega),
      List.getElem?_eq_none (by rw [product_length]; omega)]

/-- Whatever the limits and the clock, the product that is returned is that of the algebra, and the
steps show it and the tables that it is made of. -/
theorem ensures_joinAll_eq (s : Setting) (ts : List Table) :
    (joinAll s ts).Ensures fun out => out = (joined ts,
      [⟨.expand, expanded (size ts) (size ts) ts⟩, ⟨.join, [.plain (joined ts)]⟩]) := by
  unfold joinAll
  refine Run.ensures_bind (Run.ensures_ofExcept fun n hn => eq_size_of_productSize hn) ?_
  rintro _ rfl
  refine Run.ensures_bind (ensures_expand s _ _ ts) ?_
  rintro _ rfl
  refine Run.ensures_bind (Run.ensures_trivial _) fun _ _ => ?_
  refine Run.ensures_bind (P := fun t => t = joined ts) ?_ ?_
  · refine Run.ensures_ofExcept fun t ht => ?_
    rw [(Table.checked_eq_ok_iff.mp ht).1, joinRows_expanded]
    rfl
  · rintro _ rfl
    exact Run.ensures_pure rfl

/-- Whatever the limits and the clock, the table that a trace joins is the one of the algebra. -/
theorem ensures_join_eq (s : Setting) (ts : List Table) :
    (join s ts).Ensures fun out => out.1 = joined ts := by
  unfold join
  split
  · next t => exact Run.ensures_pure (by simp [joined, product])
  · refine Run.ensures_bind (ensures_joinAll_eq s ts) ?_
    rintro _ rfl
    exact Run.ensures_pure rfl

end QueryTrace.Trace

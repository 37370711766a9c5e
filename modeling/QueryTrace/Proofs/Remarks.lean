/-
Remarks are true of traces.

A remark is made about a statement that has only been parsed, and it says what a trace of the
statement will be like.  This file compares the two for every store, limits and clock.

* `Expr.fails_of_hasAggregate` — an expression with an aggregate has no value where there is no
  group, since no operand is ever skipped;
* **`ofSelect_within_limits`** — whatever the limits, a trace ends in the tables of the algebra,
  fails as the algebra does, or reports a limit;
* `ensures_havingMarked` — a condition on groups without a grouping judges one group, which has the
  rows that the filter leaves;
* **`remarks_true`** — what the remarks say, of all traces of a statement.

Design notes: a statement may be one that no trace gets through, as when the condition on groups has
an aggregate of an unknown name.  A remark about the steps of a trace is therefore compared with
each trace that comes to its end.
-/
import QueryTrace.Proofs.Consistency
import QueryTrace.Proofs.Limits
import QueryTrace.Statement.Remark

namespace QueryTrace

/-! ### Aggregates without a group -/

/-- All operands are evaluated, so one that fails makes the whole expression fail. -/
theorem Expr.fails_of_hasAggregate {e : Expr} (h : e.hasAggregate = true) (names : Names)
    (row : Row) : ∃ cause, e.evalUsing names none row = .error cause := by
  induction e with
  | aggregate function argument _ => exact ⟨.ungroupedAggregate, rfl⟩
  | binary op l r ihl ihr =>
    rw [hasAggregate, Bool.or_eq_true] at h
    rw [evalUsing]
    cases hl : l.evalUsing names none row with
    | error cause => exact ⟨cause, rfl⟩
    | ok a =>
      rcases h with h | h
      · obtain ⟨cause, hcause⟩ := ihl h
        rw [hl] at hcause
        cases hcause
      · obtain ⟨cause, hcause⟩ := ihr h
        rw [hcause]
        exact ⟨cause, rfl⟩
  | _ => cases h

namespace Relational

theorem restrict_of_hasAggregate {condition : Expr} (h : condition.hasAggregate = true)
    (aliases : List (Aliased Expr)) {t : Table} (ht : t.rows ≠ []) :
    ∃ cause, restrict aliases (some condition) t = .error cause := by
  obtain ⟨row, rows, hrows⟩ := List.exists_cons_of_ne_nil ht
  obtain ⟨cause, hcause⟩ := Expr.fails_of_hasAggregate h
    (Scope.resolve { columns := t.columns, aliases } aliases.length) row
  have hrow : Scope.evaluate { columns := t.columns, aliases } condition row = .error cause :=
    hcause
  refine ⟨cause, ?_⟩
  unfold restrict
  dsimp only
  rw [hrows, keep, hrow]
  rfl

end Relational

/-! ### Runs under limits -/

namespace Run

variable {α β : Type} {x y : Run α} {P Q : α → Prop}

theorem ensures_and (hP : x.Ensures P) (hQ : x.Ensures Q) : x.Ensures fun a => P a ∧ Q a :=
  fun p a q h => ⟨hP p a q h, hQ p a q h⟩

/-- What is cut short only by limits has no other values than what it is cut from. -/
theorem ensures_of_cutShort {R : α → β → Prop} {r : Except Failure β} (hx : x.CutShort y)
    (hy : y.Follows R r) : x.Ensures fun a => ∃ b, r = .ok b ∧ R a b := by
  intro p a q h
  have hp := hx p p
  have hf := hy p
  rw [h] at hp
  rcases hp with hsame | ⟨cause, hcause⟩
  · rw [← hsame] at hf
    cases r with
    | ok b => exact ⟨b, rfl, hf⟩
    | error e => exact hf.elim
  · cases hcause

end Run

namespace Trace

open Relational

variable {s : Setting} {q : Select}

/-- A product of several tables that is too large ends the trace. -/
theorem join_of_productSize {ts : List Table} {cause : ResourceError} (hlen : ts.length ≠ 1)
    (h : productSize s.limits ts = .error cause) (p : Progress) :
    join s ts p = (.error (.resource cause), p) := by
  have hall : joinAll s ts p = (.error (.resource cause), p) := by
    unfold joinAll
    rw [h, Run.bind_apply, Run.ofExcept_apply]
    rfl
  unfold join
  split
  · next t => exact (hlen rfl).elim
  · rw [Run.bind_apply, hall]

theorem ofSelect_of_productSize (hq : q.tables ≠ []) (hb : s.limits.timeBudget = none)
    {ts : List Table} (hload : q.tables.mapM (source s.store) = .ok ts) (hlen : ts.length ≠ 1)
    {cause : ResourceError} (h : productSize s.limits ts = .error cause) (p : Progress) :
    (ofSelect s q p).1 = .error (.resource cause) := by
  have hinputs := follows_load hb q.tables p
  rw [hload] at hinputs
  rw [ofSelect_eq_stages s hq, Run.bind_apply]
  rcases hl : load s q.tables p with ⟨out, p'⟩
  rw [hl] at hinputs
  cases out with
  | ok inputs =>
    obtain rfl : inputs = ts := hinputs
    dsimp only
    rw [Run.bind_apply, join_of_productSize hlen h]
  | error e => exact hinputs.elim

/-- **Limits only abort what the algebra does.** -/
theorem ofSelect_within_limits (hq : q.tables ≠ []) (s : Setting) (p : Progress) :
    (ofSelect s q p).1.map finalTables = (Relational.result s.store q).map some ∨
      ∃ cause, (ofSelect s q p).1 = .error (.resource cause) := by
  let free := s.bounded s.clock none
  have hcut := cutShort_ofSelect (s.bounded_none_loosens s.clock) q p p
  rcases hcut with hsame | hlimit
  · rw [hsame]
    -- without a bound the size of the product may still be too large for 64 bits
    by_cases hover : ∃ ts cause, q.tables.mapM (source s.store) = .ok ts ∧ ts.length ≠ 1 ∧
        productSize free.limits ts = .error cause
    · obtain ⟨ts, cause, hload, hlen, hsize⟩ := hover
      exact .inr ⟨cause, ofSelect_of_productSize (s := free) hq rfl hload hlen hsize p⟩
    · have hsize : ∀ ts, q.tables.mapM (source s.store) = .ok ts → ts.length ≠ 1 →
          productSize free.limits ts = .ok (size ts) := by
        intro ts hload hlen
        cases h : productSize free.limits ts with
        | ok n => rw [eq_size_of_productSize h]
        | error cause => exact (hover ⟨ts, cause, hload, hlen, h⟩).elim
      have hfollows : (ofSelect free q).Follows (fun steps ts => finalTables steps = some ts)
          (Relational.result s.store q) := follows_ofSelect_of_productSize hq rfl hsize
      exact .inl (hfollows.map_eq p)
  · exact .inr hlimit

/-- **An aggregate in the filter fails**, if there is a row to be judged and no limit ends the trace
before. -/
theorem ofSelect_of_hasAggregate {condition : Expr} (hq : q.tables ≠ [])
    (hfilter : q.filter = some condition) (h : condition.hasAggregate = true) {ts : List Table}
    (hload : q.tables.mapM (source s.store) = .ok ts) (hrows : product ts ≠ []) {p : Progress}
    (hlimit : ∀ cause, (ofSelect s q p).1 ≠ .error (.resource cause)) :
    ∃ cause, (ofSelect s q p).1 = .error (.evaluation cause) := by
  obtain ⟨cause, hcause⟩ : ∃ cause, restrict q.columns q.filter (joined ts) = .error cause :=
    hfilter ▸ restrict_of_hasAggregate h q.columns hrows
  have hresult : Relational.result s.store q = .error (.evaluation cause) := by
    unfold Relational.result
    rw [hload, except_ok_bind, hcause]
    rfl
  rcases ofSelect_within_limits hq s p with halgebra | ⟨cause', hcause'⟩
  · rw [hresult] at halgebra
    refine ⟨cause, ?_⟩
    cases ho : (ofSelect s q p).1 with
    | ok steps =>
      rw [ho] at halgebra
      cases halgebra
    | error e =>
      rw [ho] at halgebra
      cases halgebra
      rfl
  · exact (hlimit cause' hcause').elim

/-! ### The tables of the stages -/

theorem ensures_load_source (s : Setting) (entries : List (Aliased String)) :
    (load s entries).Ensures fun ts => entries.mapM (source s.store) = .ok ts := by
  have hfree := s.bounded_none_loosens s.clock
  intro p ts p' h
  obtain ⟨ts', hts', rfl⟩ :=
    Run.ensures_of_cutShort (cutShort_load hfree entries) (follows_load rfl entries) p ts p' h
  exact hts'

theorem ensures_filterStage_restrict (s : Setting) (q : Select) (t : Table) :
    (filterStage s q t).Ensures fun out => restrict q.columns q.filter t = .ok out.1 := by
  have hfree := s.bounded_none_loosens s.clock
  intro p out p' h
  obtain ⟨t', ht', hout⟩ := Run.ensures_of_cutShort (cutShort_filterStage hfree q t)
    (follows_filterStage rfl q t) p out p' h
  cases hr : restrict q.columns q.filter t with
  | ok u =>
    rw [hr] at ht'
    cases ht'
    rw [hout]
  | error e =>
    rw [hr] at ht'
    cases ht'

/-! ### The steps of a trace -/

theorem filter_kind_eq_nil {steps : List Step} {kind : StepKind}
    (h : kind ∉ steps.map (·.kind)) : steps.filter (·.kind = kind) = [] := by
  rw [List.filter_eq_nil_iff]
  intro step hstep hkind
  exact h (List.mem_map.mpr ⟨step, hstep, by simpa using hkind⟩)

/-- Tables are expanded and joined if there are several of them. -/
theorem mem_kindsOf (q : Select) :
    (.expand ∈ kindsOf q ↔ 2 ≤ q.tables.length) ∧ (.join ∈ kindsOf q ↔ 2 ≤ q.tables.length) := by
  constructor
  · simp [kindsOf]
  · simp [kindsOf]

/-- **One group.**  A condition on groups without a grouping is judged once, on the rows that the
filter leaves. -/
theorem ensures_havingMarked (s : Setting) {condition : Expr} (hq : q.tables ≠ [])
    (hgroup : q.groupBy = none) (hhaving : q.having = some condition) :
    (ofSelect s q).Ensures fun steps => ∃ ts t label,
      q.tables.mapM (source s.store) = .ok ts ∧
      restrict q.columns q.filter (joined ts) = .ok t ∧
      steps.filter (·.kind = .havingMarked) = [⟨.havingMarked, [.withLabel t label]⟩] := by
  rw [ofSelect_eq_stages s hq]
  refine Run.ensures_bind (Run.ensures_and (ensures_load_source s q.tables)
    (ensures_load s q.tables)) fun inputs hinputs => ?_
  obtain ⟨hload, hlen, hr⟩ := hinputs
  refine Run.ensures_bind (Run.ensures_and (ensures_join_eq s inputs) (ensures_join hr))
    fun out hout => ?_
  obtain ⟨hjoined, -, -, hjoin⟩ := hout
  refine Run.ensures_bind (Run.ensures_and (ensures_filterStage_restrict s q out.1)
    (ensures_filterStage q out.1)) fun filtered hfiltered => ?_
  obtain ⟨hrestrict, hfilter⟩ := hfiltered
  refine Run.ensures_bind (ensures_groupStage q filtered.1) fun grouped hgrouped => ?_
  refine Run.ensures_bind (ensures_havingStage q grouped.1) fun chosen hchosen => ?_
  rw [hgroup] at hgrouped
  obtain ⟨hnone, hone⟩ := hgrouped
  rw [hhaving, hone] at hchosen
  obtain ⟨marked, hmarked, htables, hlabels, -⟩ := hchosen
  obtain ⟨g, rfl, hg⟩ := List.map_eq_singleton_iff.mp htables
  obtain ⟨label, rfl⟩ : ∃ label, g = .withLabel filtered.1 label := by
    obtain ⟨hrows, hlabel⟩ := hlabels g (List.mem_singleton_self g)
    rcases g with ⟨table, label, rowLabels⟩
    dsimp only at hg hrows hlabel
    subst hg hrows
    rcases hlabel with rfl | rfl
    · exact ⟨.kept, rfl⟩
    · exact ⟨.rejected, rfl⟩
  have hentries : q.tables.length ≠ 0 := fun h => hq (List.length_eq_zero_iff.mp h)
  rw [hlen] at hjoin
  have hfront : StepKind.havingMarked ∉ (out.2 ++ filtered.2).map (·.kind) := by
    rw [List.map_append, hjoin.kinds hentries, hfilter.kinds]
    simp
  rw [hjoined] at hrestrict
  refine Run.ensures_pure ⟨inputs, filtered.1, label, hload, hrestrict, ?_⟩
  rw [hnone, hmarked, List.append_nil, List.append_assoc, List.filter_append,
    filter_kind_eq_nil hfront]
  rfl

/-! ### What the remarks are made for -/

section Remarks

variable {st : Statement}

theorem nothingToTrace_mem_remarks : .nothingToTrace ∈ st.remarks ↔ st.select.tables = [] := by
  rw [mem_remarks, Remark.applies, List.isEmpty_iff]

theorem fullProduct_mem_remarks :
    (∃ n, .fullProduct n ∈ st.remarks) ↔ 2 ≤ st.select.tables.length := by
  simp [mem_remarks, Remark.applies]

theorem oneGroup_mem_remarks :
    .oneGroup ∈ st.remarks ↔
      (∃ condition, st.select.having = some condition) ∧ st.select.groupBy = none := by
  rw [mem_remarks, Remark.applies, Bool.and_eq_true, Option.isSome_iff_exists,
    Option.isNone_iff_eq_none]

theorem aggregateInFilter_mem_remarks :
    .aggregateInFilter ∈ st.remarks ↔
      ∃ condition, st.select.filter = some condition ∧ condition.hasAggregate = true := by
  rw [mem_remarks, Remark.applies, Option.any_eq_true]

end Remarks

/-- **Remarks are true.**  A statement is said to have nothing to trace just if its trace has no
steps, and any other trace that comes to its end does so with a result.  A statement is said to make
a full product just if such a trace has an expansion and a join.  If it is said to have one group,
the condition on groups is shown with one table, of the rows that the filter leaves.  If it is said
to have an aggregate in its filter, its expressions fail, unless there is no row or a limit ends the
trace.  Order and bound are not traced, whatever they are. -/
theorem remarks_true (st : Statement) (s : Setting) (p : Progress) :
    (.nothingToTrace ∈ st.remarks ↔ (ofSelect s st.select p).1 = .ok []) ∧
    (∀ steps, (ofSelect s st.select p).1 = .ok steps →
      (.nothingToTrace ∉ st.remarks →
        ∃ tables, steps.getLast? = some ⟨.result, tables⟩) ∧
      ((∃ n, .fullProduct n ∈ st.remarks) ↔
        .expand ∈ steps.map (·.kind) ∧ .join ∈ steps.map (·.kind)) ∧
      (.oneGroup ∈ st.remarks → .nothingToTrace ∉ st.remarks →
        ∃ ts t label, st.select.tables.mapM (source s.store) = .ok ts ∧
          restrict st.select.columns st.select.filter (joined ts) = .ok t ∧
          steps.filter (·.kind = .havingMarked) = [⟨.havingMarked, [.withLabel t label]⟩])) ∧
    (∀ ts, .aggregateInFilter ∈ st.remarks → .nothingToTrace ∉ st.remarks →
      st.select.tables.mapM (source s.store) = .ok ts → product ts ≠ [] →
      (∀ cause, (ofSelect s st.select p).1 ≠ .error (.resource cause)) →
      ∃ cause, (ofSelect s st.select p).1 = .error (.evaluation cause)) ∧
    ∀ orderBy limit, ofSelect s { st.select with orderBy, limit } = ofSelect s st.select := by
  have hconsistent : ∀ {steps}, st.select.tables ≠ [] →
      (ofSelect s st.select p).1 = .ok steps → Consistent st.select steps :=
    fun hq ho => ofSelect_consistent hq (Prod.ext ho rfl)
  have hresult : ∀ {steps}, st.select.tables ≠ [] → (ofSelect s st.select p).1 = .ok steps →
      ∃ tables, steps.getLast? = some ⟨.result, tables⟩ := by
    intro steps hq ho
    obtain ⟨-, -, -, chosen, -, -, -, -, rfl, -⟩ := (hconsistent hq ho).stages
    exact ⟨chosen.map .plain, List.getLast?_concat⟩
  have hnone : ∀ {steps}, st.select.tables = [] → (ofSelect s st.select p).1 = .ok steps →
      steps = [] := by
    intro steps hq ho
    rw [ofSelect_of_no_tables hq] at ho
    cases ho
    rfl
  rw [nothingToTrace_mem_remarks]
  refine ⟨⟨fun hq => ?_, fun ho => ?_⟩, fun steps ho => ⟨fun hq => hresult hq ho, ?_, ?_⟩, ?_,
    fun _ _ => rfl⟩
  · rw [ofSelect_of_no_tables hq]
    rfl
  · refine Decidable.byContradiction fun hq => ?_
    obtain ⟨tables, htables⟩ := hresult hq ho
    cases htables
  · rw [fullProduct_mem_remarks]
    by_cases hq : st.select.tables = []
    · rw [hnone hq ho, hq]
      decide
    · obtain ⟨hexpand, hjoin⟩ := mem_kindsOf st.select
      rw [(hconsistent hq ho).kinds, hexpand, hjoin, and_self]
  · intro hgroup hq
    obtain ⟨⟨condition, hhaving⟩, hgroupBy⟩ := oneGroup_mem_remarks.mp hgroup
    exact ensures_havingMarked s hq hgroupBy hhaving p steps _ (Prod.ext ho rfl)
  · intro ts haggregate hq hload hrows hlimit
    obtain ⟨condition, hfilter, h⟩ := aggregateInFilter_mem_remarks.mp haggregate
    exact ofSelect_of_hasAggregate hq hfilter h hload hrows hlimit

/-- A query over two tables with a condition on groups and no grouping. -/
def pairsTogether : Statement :=
  .query
    { columns := [⟨.column "*", none⟩]
      tables := [⟨"t", none⟩, ⟨"u", none⟩]
      having := some (.binary .eq (.qualified "u" "x") (.text "b")) }

/-- A query with an aggregate behind a condition that is false of every row. -/
def countInFilter : Statement :=
  .query
    { columns := [⟨.column "*", none⟩]
      tables := [⟨"t", none⟩]
      filter := some (.binary .and (.binary .eq (.column "x") (.text "c"))
        (.aggregate "count" (.column "x"))) }

theorem remarks_true_letters :
    (∃ steps, (ofSelect lettersEverywhere pairsTogether.select {}).1 = .ok steps ∧
      (∃ tables, steps.getLast? = some ⟨.result, tables⟩) ∧
      (.expand ∈ steps.map (·.kind) ∧ .join ∈ steps.map (·.kind)) ∧
      ∃ ts t label, pairsTogether.select.tables.mapM (source lettersEverywhere.store) = .ok ts ∧
        restrict pairsTogether.select.columns none (joined ts) = .ok t ∧
        steps.filter (·.kind = .havingMarked) = [⟨.havingMarked, [.withLabel t label]⟩]) ∧
    ∃ cause, (ofSelect lettersEverywhere countInFilter.select {}).1 =
      .error (.evaluation cause) := by
  constructor
  · obtain ⟨steps, ho⟩ : ∃ steps,
        (ofSelect lettersEverywhere pairsTogether.select {}).1 = .ok steps := ⟨_, rfl⟩
    obtain ⟨-, hsteps, -⟩ := remarks_true pairsTogether lettersEverywhere {}
    obtain ⟨hresult, hproduct, hgroup⟩ := hsteps steps ho
    exact ⟨steps, ho, hresult (by decide), hproduct.mp ⟨2, by decide⟩,
      hgroup (by decide) (by decide)⟩
  · obtain ⟨-, -, haggregate, -⟩ := remarks_true countInFilter lettersEverywhere {}
    have hload : countInFilter.select.tables.mapM (source lettersEverywhere.store) =
        .ok [⟨["t.x"], [[.text "a"], [.text "b"]]⟩] := rfl
    have hlimit : ∀ cause, (ofSelect lettersEverywhere countInFilter.select {}).1 ≠
        .error (.resource cause) := fun _ h => nomatch h
    exact haggregate _ (by decide) (by decide) hload (by simp [product]) hlimit

end Trace

end QueryTrace

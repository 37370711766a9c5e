/-
Traces are consistent in themselves.

Whatever the store, the limits and the clock are: if a trace comes to its end, its steps agree with
each other.  The labels of one step say which rows or tables the next step shows.

* `Consistent q steps` says which steps there are, that all tables are rectangular and labelled row
  by row, and how the labels of each stage tell its outcome;
* `JoinShown`, `FilterShown`, `GroupShown` and `HavingShown` are what one stage shows, and each has
  a lemma about the stage (`ensures_filterStage` and so on) and one about its tables;
* `ofSelect_consistent` — every trace that ends is consistent.
-/
import QueryTrace.Proofs.NestedLoops
import QueryTrace.Proofs.Selection

namespace QueryTrace

/-- Is the table rectangular, and does every row have a label if the rows have labels? -/
def Annotated.WellLabelled (t : Annotated) : Prop :=
  t.table.Rectangular ∧ ∀ labels, t.rowLabels = some labels → labels.length = t.table.rows.length

/-- Are all tables of the steps well labelled? -/
def WellLabelledSteps (steps : List Step) : Prop :=
  ∀ step ∈ steps, ∀ t ∈ step.tables, t.WellLabelled

namespace Trace

/-! ### What the stages show -/

/-- The tables are shown, and if there are several of them they are shown expanded and joined. -/
def JoinShown (entries : Nat) (joined : Table) (steps : List Step) : Prop :=
  if entries = 1 then steps = [⟨.load, [.plain joined]⟩]
  else ∃ loaded expanded : List Annotated,
    steps = [⟨.load, loaded⟩, ⟨.expand, expanded⟩, ⟨.join, [.plain joined]⟩] ∧
    loaded.length = entries ∧ expanded.length = entries

/-- The marked table is the one that came in, and the rows that are marked as kept go out. -/
def FilterShown (condition : Option Expr) (t out : Table) (steps : List Step) : Prop :=
  match condition with
  | none => steps = [] ∧ out = t
  | some _ => ∃ labels : List Label, labels.length = t.rows.length ∧
    (∀ label ∈ labels, label = .kept ∨ label = .rejected) ∧
    steps = [⟨.filterMarked, [.withRowLabels t labels]⟩, ⟨.filtered, [.plain out]⟩] ∧
    out = ⟨t.columns, rowsBeside .kept labels t.rows⟩

/-- Every row is marked with the number of a group, and each group is the rows with its number. -/
def GroupShown (exprs : Option (List Expr)) (t : Table) (groups : List Table)
    (steps : List Step) : Prop :=
  match exprs with
  | none => steps = [] ∧ groups = [t]
  | some _ => ∃ (labels : List Label) (grouped : List Annotated), labels.length = t.rows.length ∧
    (∀ label ∈ labels, ∃ id < groups.length, label = .group id) ∧
    steps = [⟨.groupMarked, [.withRowLabels t labels]⟩, ⟨.grouped, grouped⟩] ∧
    grouped.map (·.table) = groups ∧
    ∀ id g, grouped[id]? = some g →
      g = Annotated.withLabel ⟨t.columns, rowsBeside (.group id) labels t.rows⟩ (.group id)

/-- Every group is marked, and those that are marked as kept are left. -/
def HavingShown (condition : Option Expr) (groups chosen : List Table) (steps : List Step) :
    Prop :=
  match condition with
  | none => steps = [] ∧ chosen = groups
  | some _ => ∃ marked : List Annotated, steps = [⟨.havingMarked, marked⟩] ∧
    marked.map (·.table) = groups ∧
    (∀ g ∈ marked, g.rowLabels = none ∧ (g.label = some .kept ∨ g.label = some .rejected)) ∧
    chosen = (marked.filter fun g => g.label = some .kept).map (·.table)

/-- The kinds of step that the trace of a query has. -/
def kindsOf (q : Select) : List StepKind :=
  [.load] ++ (if 2 ≤ q.tables.length then [.expand, .join] else []) ++
    (if q.filter.isSome then [.filterMarked, .filtered] else []) ++
    (if q.groupBy.isSome then [.groupMarked, .grouped] else []) ++
    (if q.having.isSome then [.havingMarked] else []) ++ [.result]

/-- Do the steps of a trace agree with each other?  Each stage takes up the tables that the stage
before it has shown last, and the result shows those of the last stage. -/
structure Consistent (q : Select) (steps : List Step) : Prop where
  kinds : steps.map (·.kind) = kindsOf q
  wellLabelled : WellLabelledSteps steps
  stages : ∃ (joined filtered : Table) (groups chosen : List Table)
    (joinSteps filterSteps groupSteps havingSteps : List Step),
    steps = joinSteps ++ filterSteps ++ groupSteps ++ havingSteps ++
      [⟨.result, chosen.map .plain⟩] ∧
    JoinShown q.tables.length joined joinSteps ∧
    FilterShown q.filter joined filtered filterSteps ∧
    GroupShown q.groupBy filtered groups groupSteps ∧
    HavingShown q.having groups chosen havingSteps

variable {s : Setting} {q : Select}

theorem wellLabelled_plain {t : Table} (h : t.Rectangular) : (Annotated.plain t).WellLabelled :=
  ⟨h, fun _ hl => by cases hl⟩

theorem wellLabelled_withLabel {t : Table} (h : t.Rectangular) (label : Label) :
    (Annotated.withLabel t label).WellLabelled :=
  ⟨h, fun _ hl => by cases hl⟩

theorem wellLabelled_withRowLabels {t : Table} {labels : List Label} (h : t.Rectangular)
    (hl : labels.length = t.rows.length) : (Annotated.withRowLabels t labels).WellLabelled := by
  refine ⟨h, fun labels' hl' => ?_⟩
  cases hl'
  exact hl

/-! ### The tables and their product -/

theorem ensures_fetch (s : Setting) (name : String) :
    (Run.fetch s name).Ensures Table.Rectangular := by
  refine Run.ensures_bind (Run.ensures_trivial _) fun _ _ => ?_
  refine Run.ensures_bind (Run.ensures_trivial _) fun answer _ => ?_
  cases answer with
  | nil => exact Run.ensures_throw _
  | cons t more =>
    refine Run.ensures_ofExcept fun t' ht' => ?_
    obtain ⟨rfl, hr⟩ := Table.checked_eq_ok_iff.mp ht'
    exact hr

theorem ensures_load (s : Setting) (entries : List (Aliased String)) :
    (load s entries).Ensures fun ts =>
      ts.length = entries.length ∧ ∀ t ∈ ts, t.Rectangular := by
  refine Run.ensures_mapM fun entry _ => ?_
  refine Run.ensures_bind (ensures_fetch s entry.item) fun t ht => ?_
  refine Run.ensures_bind (Run.ensures_trivial _) fun _ _ => ?_
  exact Run.ensures_pure (Table.qualified_rectangular ht entry.displayName)

theorem wellLabelled_numbered {t : Table} (h : t.Rectangular) : (numbered t).WellLabelled :=
  wellLabelled_withRowLabels h (by simp)

theorem selectRows_copies_length {size run : Nat} {t : Table} (h : t.rows = [] → size = 0) :
    (t.selectRows (copies size run t.rows.length)).rows.length = size := by
  rw [Table.selectRows_eq]
  show (List.filterMap _ _).length = size
  cases hr : t.rows with
  | nil =>
    rw [h hr]
    rfl
  | cons row rows =>
    rw [← hr, length_filterMap_of_isSome (isSome_of_mem_copies (by simp [hr])), copies_length]

theorem wellLabelled_expandTable {size run : Nat} {t : Table} (hr : t.Rectangular)
    (h : t.rows = [] → size = 0) : (expandTable size run t).WellLabelled := by
  refine wellLabelled_withRowLabels (Table.selectRows_rectangular hr _) ?_
  rw [selectRows_copies_length h, List.length_map, copies_length]

theorem wellLabelled_expanded {size : Nat} (before : Nat) {ts : List Table}
    (hr : ∀ t ∈ ts, t.Rectangular) (h : ∀ t ∈ ts, t.rows = [] → size = 0) :
    (expanded size before ts).length = ts.length ∧
      ∀ t ∈ expanded size before ts, t.WellLabelled := by
  induction ts generalizing before with
  | nil => simp [expanded]
  | cons t ts ih =>
    have ih := ih (runLength before t) (fun u hu => hr u (by simp [hu]))
      (fun u hu => h u (by simp [hu]))
    refine ⟨by simp [expanded, ih.1], fun a ha => ?_⟩
    rcases List.mem_cons.mp ha with rfl | ha
    · exact wellLabelled_expandTable (hr t (by simp)) (h t (by simp))
    · exact ih.2 a ha

theorem ensures_joinAll {ts : List Table} (hr : ∀ t ∈ ts, t.Rectangular) :
    (joinAll s ts).Ensures fun out => out.1.Rectangular ∧ ∃ expanded : List Annotated,
      out.2 = [⟨.expand, expanded⟩, ⟨.join, [.plain out.1]⟩] ∧
      expanded.length = ts.length ∧ ∀ t ∈ expanded, t.WellLabelled := by
  rintro p _ q hj
  obtain rfl := ensures_joinAll_eq s ts p _ q hj
  -- a product within the limits has as many rows as its size says, so no expansion is cut short
  have h := wellLabelled_expanded (Relational.size ts) hr fun t ht => size_eq_zero ht
  exact ⟨fun _ hrow => Relational.product_row_length hr hrow, _, rfl, h.1, h.2⟩

theorem ensures_join {ts : List Table} (hr : ∀ t ∈ ts, t.Rectangular) :
    (join s ts).Ensures fun out => out.1.Rectangular ∧ WellLabelledSteps out.2 ∧
      JoinShown ts.length out.1 out.2 := by
  unfold join
  split
  · next t =>
    have ht : t.Rectangular := hr t (by simp)
    exact Run.ensures_pure ⟨ht, by simp [WellLabelledSteps, wellLabelled_plain ht], rfl⟩
  · next hne =>
    refine Run.ensures_bind (ensures_joinAll hr) ?_
    rintro ⟨joined, steps⟩ ⟨hj, expanded, hsteps, hlen, hexp⟩
    dsimp only at hj hsteps
    subst hsteps
    refine Run.ensures_pure ⟨hj, ?_, ?_⟩
    · simp only [WellLabelledSteps, List.mem_cons, List.not_mem_nil, or_false, forall_eq_or_imp,
        forall_eq]
      refine ⟨fun t ht => ?_, hexp, wellLabelled_plain hj⟩
      obtain ⟨u, hu, rfl⟩ := List.mem_map.mp ht
      exact wellLabelled_numbered (hr u hu)
    · have h1 : ts.length ≠ 1 := fun h => by
        obtain ⟨t, rfl⟩ := List.length_eq_one_iff.mp h
        exact hne t rfl
      rw [JoinShown, if_neg h1]
      exact ⟨_, _, rfl, by simp, hlen⟩

/-! ### The clauses -/

theorem ensures_filterStage (q : Select) (t : Table) :
    (filterStage s q t).Ensures fun out => FilterShown q.filter t out.1 out.2 := by
  unfold filterStage FilterShown
  cases q.filter with
  | none => exact Run.ensures_pure ⟨rfl, rfl⟩
  | some condition =>
    have hlabel : ∀ r ∈ t.rows.zipIdx, Run.Ensures (do
        Run.keepPace s r.2
        let v ← Run.ofExcept .evaluation
          (Scope.evaluate { columns := t.columns, aliases := q.columns } condition r.1)
        return verdict v.truthy) fun label => label = .kept ∨ label = .rejected := by
      intro r _
      refine Run.ensures_bind (Run.ensures_trivial _) fun _ _ => ?_
      refine Run.ensures_bind (Run.ensures_trivial _) fun v _ => Run.ensures_pure ?_
      cases v.truthy <;> simp [verdict]
    refine Run.ensures_bind (Run.ensures_mapM hlabel) ?_
    rintro labels ⟨hlen, hl⟩
    rw [List.length_zipIdx] at hlen
    exact Run.ensures_pure ⟨labels, hlen, hl, rfl, selectRows_keptIndices hlen⟩

/-- Each row is labelled with the number of its group. -/
theorem rowsBeside_groupLabels {keys : List String} {id : Nat} (h : id < keys.eraseDups.length)
    (rows : List Row) :
    rowsBeside (.group id) (keys.map fun key => Label.group (keys.eraseDups.idxOf key)) rows =
      rowsBeside keys.eraseDups[id] keys rows := by
  refine rowsBeside_map (fun key hkey => ?_) rows
  rw [Label.group.injEq]
  constructor
  · rintro rfl
    exact (List.getElem_idxOf h).symm
  · rintro rfl
    exact (nodup_eraseDups keys).idxOf_getElem id h

/-- The table of a group is the rows with its number. -/
theorem getElem?_groupTables {t g : Table} {keys : List String} {id : Nat}
    (h : keys.length = t.rows.length)
    (hg : ((groupsOf keys).map fun g => t.selectRows g.members)[id]? = some g) :
    g = ⟨t.columns, rowsBeside (.group id)
      (keys.map fun key => Label.group (keys.eraseDups.idxOf key)) t.rows⟩ := by
  rw [groupsOf, List.map_map, List.getElem?_map] at hg
  obtain ⟨key, hkey, rfl⟩ := Option.map_eq_some_iff.mp hg
  obtain ⟨hid, rfl⟩ := List.getElem?_eq_some_iff.mp hkey
  rw [rowsBeside_groupLabels hid]
  exact selectRows_membersOf _ h

theorem ensures_groupStage (q : Select) (t : Table) :
    (groupStage s q t).Ensures fun out => GroupShown q.groupBy t out.1 out.2 := by
  unfold groupStage GroupShown
  cases q.groupBy with
  | none => exact Run.ensures_pure ⟨rfl, rfl⟩
  | some exprs =>
    refine Run.ensures_bind (Run.ensures_ofExcept fun keys hkeys => mapM_length hkeys) ?_
    intro keys hlen
    refine Run.ensures_bind (Run.ensures_trivial _) fun _ _ => Run.ensures_pure ?_
    have hids : (groupsOf keys).map (·.key) = keys.eraseDups := by
      simp [groupsOf, Function.comp_def]
    refine ⟨_, _, by simpa using hlen, ?_, rfl, ?_, ?_⟩
    -- every label is the number of a group, because the keys are numbered among themselves
    · intro label hl
      obtain ⟨key, hkey, rfl⟩ := List.mem_map.mp hl
      refine ⟨_, ?_, rfl⟩
      rw [List.length_map, ← List.length_map (f := (·.key)), hids]
      exact List.idxOf_lt_length_of_mem (List.mem_eraseDups.mpr hkey)
    · rw [List.map_map]
      exact List.zipIdx_map_fst _ _
    -- the table behind a number is the one that was labelled with it
    · intro id g hg
      rw [List.getElem?_map, List.getElem?_zipIdx] at hg
      obtain ⟨⟨u, i⟩, hu, rfl⟩ := Option.map_eq_some_iff.mp hg
      obtain ⟨v, hv, he⟩ := Option.map_eq_some_iff.mp hu
      cases he
      rw [hids, Nat.zero_add]
      exact congrArg (Annotated.withLabel · (.group id)) (getElem?_groupTables hlen hv)

theorem verdict_eq_kept {keep : Bool} : verdict keep = .kept ↔ keep = true := by
  cases keep <;> simp [verdict]

theorem ensures_havingStage (q : Select) (groups : List Table) :
    (havingStage s q groups).Ensures fun out => HavingShown q.having groups out.1 out.2 := by
  unfold havingStage HavingShown
  cases q.having with
  | none => exact Run.ensures_pure ⟨rfl, rfl⟩
  | some condition =>
    -- each judgement keeps the group that it is about, so the marked tables are the groups
    have horigin : ∀ g, Run.Ensures (do
        let keep ← Run.ofExcept .evaluation (judgeGroup q.columns condition g)
        return (g, keep)) fun judged => judged.1 = g := by
      intro g
      exact Run.ensures_bind (Run.ensures_trivial _) fun keep _ => Run.ensures_pure rfl
    refine Run.ensures_bind (Run.ensures_mapM_origin groups horigin) ?_
    intro judged hjudged
    refine Run.ensures_bind (Run.ensures_trivial _) fun _ _ => Run.ensures_pure ?_
    refine ⟨_, rfl, ?_, ?_, ?_⟩
    · rw [List.map_map]
      exact hjudged
    · intro marked hm
      obtain ⟨⟨g, keep⟩, -, rfl⟩ := List.mem_map.mp hm
      cases keep <;> simp [Annotated.withLabel, verdict]
    · rw [List.filter_map, List.map_map]
      show (judged.filter (·.2)).map (·.1) = _
      congr 2
      funext ⟨g, keep⟩
      simp [Annotated.withLabel, verdict_eq_kept]

/-! ### Kinds and tables of what is shown -/

theorem rowsBeside_subset {α : Type} [DecidableEq α] {label : α} {labels : List α}
    {rows : List Row} {row : Row} (h : row ∈ rowsBeside label labels rows) : row ∈ rows := by
  obtain ⟨⟨l, r⟩, hr, he⟩ := List.mem_filterMap.mp h
  by_cases hl : l = label
  · simp only [hl, if_true, Option.some.injEq] at he
    subst he
    exact (List.of_mem_zip hr).2
  · simp [hl] at he

theorem rowsBeside_rectangular {α : Type} [DecidableEq α] {t : Table} (h : t.Rectangular)
    (label : α) (labels : List α) :
    Table.Rectangular ⟨t.columns, rowsBeside label labels t.rows⟩ :=
  fun _ hr => h _ (rowsBeside_subset hr)

theorem JoinShown.kinds {entries : Nat} {joined : Table} {steps : List Step}
    (h : JoinShown entries joined steps) (he : entries ≠ 0) :
    steps.map (·.kind) = [.load] ++ if 2 ≤ entries then [.expand, .join] else [] := by
  unfold JoinShown at h
  split at h
  · next h1 =>
    subst h1 h
    rfl
  · next h1 =>
    obtain ⟨loaded, expanded, rfl, -, -⟩ := h
    rw [if_pos (by omega)]
    rfl

theorem FilterShown.kinds {condition : Option Expr} {t out : Table} {steps : List Step}
    (h : FilterShown condition t out steps) :
    steps.map (·.kind) = if condition.isSome then [.filterMarked, .filtered] else [] := by
  cases condition with
  | none =>
    obtain ⟨rfl, -⟩ := h
    rfl
  | some condition =>
    obtain ⟨labels, -, -, rfl, -⟩ := h
    rfl

theorem GroupShown.kinds {exprs : Option (List Expr)} {t : Table} {groups : List Table}
    {steps : List Step} (h : GroupShown exprs t groups steps) :
    steps.map (·.kind) = if exprs.isSome then [.groupMarked, .grouped] else [] := by
  cases exprs with
  | none =>
    obtain ⟨rfl, -⟩ := h
    rfl
  | some exprs =>
    obtain ⟨labels, grouped, -, -, rfl, -, -⟩ := h
    rfl

theorem HavingShown.kinds {condition : Option Expr} {groups chosen : List Table}
    {steps : List Step} (h : HavingShown condition groups chosen steps) :
    steps.map (·.kind) = if condition.isSome then [.havingMarked] else [] := by
  cases condition with
  | none =>
    obtain ⟨rfl, -⟩ := h
    rfl
  | some condition =>
    obtain ⟨marked, rfl, -, -, -⟩ := h
    rfl

theorem FilterShown.wellLabelled {condition : Option Expr} {t out : Table} {steps : List Step}
    (h : FilterShown condition t out steps) (ht : t.Rectangular) :
    out.Rectangular ∧ WellLabelledSteps steps := by
  cases condition with
  | none =>
    obtain ⟨rfl, rfl⟩ := h
    exact ⟨ht, by simp [WellLabelledSteps]⟩
  | some condition =>
    obtain ⟨labels, hlen, -, rfl, rfl⟩ := h
    have hout := rowsBeside_rectangular ht Label.kept labels
    refine ⟨hout, ?_⟩
    simp [WellLabelledSteps, wellLabelled_plain hout, wellLabelled_withRowLabels ht hlen]

theorem GroupShown.wellLabelled {exprs : Option (List Expr)} {t : Table} {groups : List Table}
    {steps : List Step} (h : GroupShown exprs t groups steps) (ht : t.Rectangular) :
    (∀ g ∈ groups, g.Rectangular) ∧ WellLabelledSteps steps := by
  cases exprs with
  | none =>
    obtain ⟨rfl, rfl⟩ := h
    exact ⟨by simpa using ht, by simp [WellLabelledSteps]⟩
  | some exprs =>
    obtain ⟨labels, grouped, hlen, -, rfl, rfl, hg⟩ := h
    have hgrouped : ∀ g ∈ grouped, g.WellLabelled := by
      intro g hmem
      obtain ⟨id, hid⟩ := List.mem_iff_getElem?.mp hmem
      rw [hg id g hid]
      exact wellLabelled_withLabel (rowsBeside_rectangular ht _ _) _
    refine ⟨fun g hmem => ?_, ?_⟩
    · obtain ⟨a, ha, rfl⟩ := List.mem_map.mp hmem
      exact (hgrouped a ha).1
    · simp only [WellLabelledSteps, List.mem_cons, List.not_mem_nil, or_false, forall_eq_or_imp,
        forall_eq]
      exact ⟨wellLabelled_withRowLabels ht hlen, hgrouped⟩

theorem HavingShown.wellLabelled {condition : Option Expr} {groups chosen : List Table}
    {steps : List Step} (h : HavingShown condition groups chosen steps)
    (hg : ∀ g ∈ groups, g.Rectangular) :
    (∀ g ∈ chosen, g.Rectangular) ∧ WellLabelledSteps steps := by
  cases condition with
  | none =>
    obtain ⟨rfl, rfl⟩ := h
    exact ⟨hg, by simp [WellLabelledSteps]⟩
  | some condition =>
    obtain ⟨marked, rfl, rfl, hl, rfl⟩ := h
    refine ⟨fun g hmem => ?_, ?_⟩
    · obtain ⟨a, ha, rfl⟩ := List.mem_map.mp hmem
      exact hg _ (List.mem_map_of_mem (List.mem_filter.mp ha).1)
    · simp only [WellLabelledSteps, List.mem_singleton, forall_eq]
      intro g hmem
      refine ⟨hg _ (List.mem_map_of_mem hmem), fun labels hlabels => ?_⟩
      rw [(hl g hmem).1] at hlabels
      cases hlabels

/-! ### The whole trace -/

theorem wellLabelledSteps_append {a b : List Step} (ha : WellLabelledSteps a)
    (hb : WellLabelledSteps b) : WellLabelledSteps (a ++ b) := by
  intro step hs
  rcases List.mem_append.mp hs with h | h
  · exact ha step h
  · exact hb step h

theorem ensures_ofSelect (s : Setting) {q : Select} (hq : q.tables ≠ []) :
    (ofSelect s q).Ensures (Consistent q) := by
  rw [ofSelect_eq_stages s hq]
  refine Run.ensures_bind (ensures_load s q.tables) fun inputs hinputs => ?_
  obtain ⟨hlen, hr⟩ := hinputs
  refine Run.ensures_bind (ensures_join hr) fun joined hjoined => ?_
  obtain ⟨hjr, hjl, hj⟩ := hjoined
  rw [hlen] at hj
  refine Run.ensures_bind (ensures_filterStage q joined.1) fun filtered hf => ?_
  obtain ⟨hfr, hfl⟩ := hf.wellLabelled hjr
  refine Run.ensures_bind (ensures_groupStage q filtered.1) fun grouped hg => ?_
  obtain ⟨hgr, hgl⟩ := hg.wellLabelled hfr
  refine Run.ensures_bind (ensures_havingStage q grouped.1) fun chosen hc => ?_
  obtain ⟨hcr, hcl⟩ := hc.wellLabelled hgr
  have hresult : WellLabelledSteps [⟨.result, chosen.1.map .plain⟩] := by
    simp only [WellLabelledSteps, List.mem_singleton, forall_eq]
    intro t ht
    obtain ⟨g, hmem, rfl⟩ := List.mem_map.mp ht
    exact wellLabelled_plain (hcr g hmem)
  refine Run.ensures_pure ⟨?_, ?_, ⟨_, _, _, _, _, _, _, _, rfl, hj, hf, hg, hc⟩⟩
  · have hne : q.tables.length ≠ 0 := fun h => hq (List.length_eq_zero_iff.mp h)
    simp only [List.map_append, hj.kinds hne, hf.kinds, hg.kinds, hc.kinds]
    rfl
  · exact wellLabelledSteps_append (wellLabelledSteps_append (wellLabelledSteps_append
      (wellLabelledSteps_append hjl hfl) hgl) hcl) hresult

/-- **Traces are consistent in themselves.**  If the trace of a query with tables comes to its end,
its labels and its tables agree from step to step. -/
theorem ofSelect_consistent {q : Select} {p p' : Progress} {steps : List Step}
    (hq : q.tables ≠ []) (h : ofSelect s q p = (.ok steps, p')) : Consistent q steps :=
  ensures_ofSelect s hq p steps p' h

/-- A query over two tables that keeps the rows of one key and groups them. -/
def groupedPairs : Select where
  columns := [⟨.column "*", none⟩]
  tables := [⟨"t", none⟩, ⟨"u", none⟩]
  filter := some (.binary .eq (.qualified "t" "x") (.text "a"))
  groupBy := some [.qualified "u" "x"]
  having := some (.binary .eq (.qualified "u" "x") (.text "b"))

/-- The setting of a store in which every table holds the rows `a` and `b`. -/
def lettersEverywhere : Setting where
  store _ := .ok [⟨["x"], [[.text "a"], [.text "b"]]⟩]

theorem ofSelect_groupedPairs : groupedPairs.tables ≠ [] ∧
    ∃ steps p, ofSelect lettersEverywhere groupedPairs {} = (.ok steps, p) ∧
      steps.length = 9 ∧ Consistent groupedPairs steps := by
  refine ⟨by decide, _, _, rfl, rfl, ?_⟩
  exact ofSelect_consistent (s := lettersEverywhere) (p := {}) (by decide) rfl

end Trace

end QueryTrace

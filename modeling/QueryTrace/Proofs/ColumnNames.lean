/-
The names of columns in a trace.

A trace shows the listed tables, and from the product on only tables that have all columns of the
product.  So the names of columns are told apart in a whole trace as soon as they are told apart in
the product, and that depends on the list of tables alone.

* `ColumnsOf P steps` — all tables of the steps have columns of which `P` holds;
* `FilterShown.columnsOf`, `GroupShown.columnsOf`, `HavingShown.columnsOf` and
  **`ensures_columnsOf`** — what columns the tables of a trace have;
* `nodup_iff_addressable` — columns are named differently if and only if each is found by its name;
* `columns_joined` and `nodup_namedColumns_iff` — the product, in terms of the listed tables;
* **`ofSelect_distinct_iff`** — the names in a trace are different if and only if no two entries of
  the list name a column alike; where two do, those of the product are not.

Design notes: a table that is listed twice under one name is no error.  Its columns come twice then,
and a name means the first of the two (`outcome_tableTwice`).  Names with a point in them may clash
in other ways as well, since nothing marks the point where the name of the table ends.
-/
import Mathlib.Data.List.Nodup
import QueryTrace.Proofs.Remarks
import QueryTrace.Proofs.Resolution

namespace QueryTrace

/-- Has every table of the steps columns with the property? -/
def ColumnsOf (P : List String → Prop) (steps : List Step) : Prop :=
  ∀ step ∈ steps, ∀ t ∈ step.tables, P t.table.columns

/-- Does the name of each column mean this column? -/
def Addressable (columns : List String) : Prop :=
  ∀ i c, columns[i]? = some c → columnIndex? columns c = some i

section Columns

variable {P Q : List String → Prop} {a b : List Step}

theorem ColumnsOf.mono (h : ColumnsOf P a) (hPQ : ∀ columns, P columns → Q columns) :
    ColumnsOf Q a :=
  fun step hs t ht => hPQ _ (h step hs t ht)

theorem columnsOf_append (ha : ColumnsOf P a) (hb : ColumnsOf P b) : ColumnsOf P (a ++ b) := by
  intro step hs
  rcases List.mem_append.mp hs with hs | hs
  · exact ha step hs
  · exact hb step hs

theorem columnsOf_nil : ColumnsOf P [] :=
  fun _ hs => nomatch hs

theorem columnsOf_cons {step : Step} (hstep : ∀ t ∈ step.tables, P t.table.columns)
    (ha : ColumnsOf P a) : ColumnsOf P (step :: a) := by
  intro step' hs
  rcases List.mem_cons.mp hs with rfl | hs
  · exact hstep
  · exact ha step' hs

theorem columnsOf_plain {kind : StepKind} (ts : List Table) (h : ∀ t ∈ ts, P t.columns) :
    ColumnsOf P [⟨kind, ts.map .plain⟩] := by
  refine columnsOf_cons (fun t ht => ?_) columnsOf_nil
  obtain ⟨u, hu, rfl⟩ := List.mem_map.mp ht
  exact h u hu

/-- A column is found by its name as long as no column before it has that name. -/
theorem nodup_iff_addressable {columns : List String} : columns.Nodup ↔ Addressable columns := by
  constructor
  · intro h i c hc
    obtain ⟨hi, rfl⟩ := List.getElem?_eq_some_iff.mp hc
    rw [columnIndex?, Pick.findIdx?_of_mem (List.getElem_mem hi), h.idxOf_getElem i hi]
    rfl
  · intro h
    rw [List.nodup_iff_getElem?_ne_getElem?]
    intro i j hij hj heq
    have hcj := List.getElem?_eq_getElem hj
    have hi := h i _ (heq.trans hcj)
    rw [h j _ hcj, Option.some.injEq] at hi
    omega

end Columns

namespace Trace

open Relational

variable {s : Setting} {q : Select}

/-! ### The columns that the stages show -/

theorem columns_expanded (size before : Nat) (ts : List Table) :
    ∀ a ∈ expanded size before ts, ∃ t ∈ ts, a.table.columns = t.columns := by
  induction ts generalizing before with
  | nil =>
    intro a ha
    cases ha
  | cons t ts ih =>
    intro a ha
    rcases List.mem_cons.mp ha with rfl | ha
    · exact ⟨t, List.mem_cons_self, rfl⟩
    · obtain ⟨u, hu, hcolumns⟩ := ih (runLength before t) a ha
      exact ⟨u, List.mem_cons_of_mem t hu, hcolumns⟩

/-- Up to the product, the tables have the columns of one listed table or those of all, and the
product itself is shown: in a step of its own, unless it is the only table. -/
theorem ensures_join_columns (s : Setting) (ts : List Table) :
    (join s ts).Ensures fun out =>
      ColumnsOf (fun columns => columns ∈ out.1.columns :: ts.map (·.columns)) out.2 ∧
        ∃ kind, ⟨kind, [.plain out.1]⟩ ∈ out.2 ∧ (kind = .join ∨ ts.length = 1) := by
  unfold join
  split
  · next t =>
    refine Run.ensures_pure ⟨columnsOf_plain [t] fun u hu => ?_, ?_⟩
    · rw [List.mem_singleton.mp hu]
      exact List.mem_cons_self
    · exact ⟨.load, List.mem_cons_self, .inr rfl⟩
  · refine Run.ensures_bind (ensures_joinAll_eq s ts) ?_
    rintro _ rfl
    refine Run.ensures_pure ⟨columnsOf_cons (fun t ht => ?_) (columnsOf_cons (fun t ht => ?_)
      (columnsOf_plain [joined ts] fun t ht => ?_)), ?_⟩
    · obtain ⟨u, hu, rfl⟩ := List.mem_map.mp ht
      exact List.mem_cons_of_mem _ (List.mem_map_of_mem hu)
    · obtain ⟨u, hu, hcolumns⟩ := columns_expanded (size ts) (size ts) ts t ht
      rw [hcolumns]
      exact List.mem_cons_of_mem _ (List.mem_map_of_mem hu)
    · rw [List.mem_singleton.mp ht]
      exact List.mem_cons_self
    · exact ⟨.join, by simp, .inl rfl⟩

theorem FilterShown.columnsOf {condition : Option Expr} {t out : Table} {steps : List Step}
    (h : FilterShown condition t out steps) :
    out.columns = t.columns ∧ ColumnsOf (· = t.columns) steps := by
  cases condition with
  | none =>
    obtain ⟨rfl, rfl⟩ := h
    exact ⟨rfl, columnsOf_nil⟩
  | some condition =>
    obtain ⟨labels, -, -, rfl, rfl⟩ := h
    refine ⟨rfl, columnsOf_cons (fun u hu => ?_) (columnsOf_cons (fun u hu => ?_) columnsOf_nil)⟩
    · rw [List.mem_singleton.mp hu]
      rfl
    · rw [List.mem_singleton.mp hu]
      rfl

theorem GroupShown.columnsOf {exprs : Option (List Expr)} {t : Table} {groups : List Table}
    {steps : List Step} (h : GroupShown exprs t groups steps) :
    (∀ g ∈ groups, g.columns = t.columns) ∧ ColumnsOf (· = t.columns) steps := by
  cases exprs with
  | none =>
    obtain ⟨rfl, rfl⟩ := h
    exact ⟨fun g hg => by rw [List.mem_singleton.mp hg], columnsOf_nil⟩
  | some exprs =>
    obtain ⟨labels, grouped, -, -, rfl, rfl, hgroup⟩ := h
    have hgrouped : ∀ g ∈ grouped, g.table.columns = t.columns := by
      intro g hg
      obtain ⟨id, hid⟩ := List.mem_iff_getElem?.mp hg
      rw [hgroup id g hid]
      rfl
    refine ⟨fun g hg => ?_, columnsOf_cons (fun u hu => ?_) (columnsOf_cons hgrouped columnsOf_nil)⟩
    · obtain ⟨a, ha, rfl⟩ := List.mem_map.mp hg
      exact hgrouped a ha
    · rw [List.mem_singleton.mp hu]
      rfl

theorem HavingShown.columnsOf {condition : Option Expr} {groups chosen : List Table}
    {steps : List Step} {columns : List String} (h : HavingShown condition groups chosen steps)
    (hg : ∀ g ∈ groups, g.columns = columns) :
    (∀ g ∈ chosen, g.columns = columns) ∧ ColumnsOf (· = columns) steps := by
  cases condition with
  | none =>
    obtain ⟨rfl, rfl⟩ := h
    exact ⟨hg, columnsOf_nil⟩
  | some condition =>
    obtain ⟨marked, rfl, rfl, -, rfl⟩ := h
    have hmarked : ∀ a ∈ marked, a.table.columns = columns :=
      fun a ha => hg _ (List.mem_map_of_mem ha)
    refine ⟨fun g hmem => ?_, columnsOf_cons hmarked columnsOf_nil⟩
    obtain ⟨a, ha, rfl⟩ := List.mem_map.mp hmem
    exact hmarked a (List.mem_filter.mp ha).1

/-- **The columns of a trace.**  Each table has those of a listed table or those of the product, and
the product is shown: in a step of its own, unless it is the only table. -/
theorem ensures_columnsOf (s : Setting) (hq : q.tables ≠ []) :
    (ofSelect s q).Ensures fun steps => ∃ ts, q.tables.mapM (source s.store) = .ok ts ∧
      ColumnsOf (fun columns => columns ∈ (joined ts).columns :: ts.map (·.columns)) steps ∧
        ∃ kind, ⟨kind, [.plain (joined ts)]⟩ ∈ steps ∧ (kind = .join ∨ ts.length = 1) := by
  rw [ofSelect_eq_stages s hq]
  refine Run.ensures_bind (ensures_load_source s q.tables) fun ts hts => ?_
  refine Run.ensures_bind (Run.ensures_and (ensures_join_eq s ts) (ensures_join_columns s ts)) ?_
  rintro ⟨t, joinSteps⟩ ⟨ht, hjoin, kind, hshown, hkind⟩
  dsimp only at ht hjoin hshown
  subst ht
  refine Run.ensures_bind (ensures_filterStage q (joined ts)) fun filtered hf => ?_
  obtain ⟨hfcolumns, hfsteps⟩ := hf.columnsOf
  refine Run.ensures_bind (ensures_groupStage q filtered.1) fun grouped hg => ?_
  obtain ⟨hgcolumns, hgsteps⟩ := hg.columnsOf
  rw [hfcolumns] at hgcolumns hgsteps
  refine Run.ensures_bind (ensures_havingStage q grouped.1) fun chosen hc => ?_
  obtain ⟨hccolumns, hcsteps⟩ := hc.columnsOf hgcolumns
  have hmem : ∀ columns, columns = (joined ts).columns →
      columns ∈ (joined ts).columns :: ts.map (·.columns) := by
    rintro _ rfl
    exact List.mem_cons_self
  have hresult : ColumnsOf (· = (joined ts).columns) [⟨.result, chosen.1.map .plain⟩] :=
    columnsOf_plain _ hccolumns
  refine Run.ensures_pure ⟨ts, hts, ?_, kind, by simp [hshown], hkind⟩
  exact columnsOf_append (columnsOf_append (columnsOf_append (columnsOf_append hjoin
    (hfsteps.mono hmem)) (hgsteps.mono hmem)) (hcsteps.mono hmem)) (hresult.mono hmem)

/-! ### The list of tables -/

/-- The columns of a listed table as the store has them; none if it cannot be read. -/
def storedColumns (store : Catalogue) (entry : Aliased String) : List String :=
  match stored store entry.item with
  | .ok t => t.columns
  | .error _ => []

/-- The columns of a listed table with its name in front of them. -/
def namedColumns (store : Catalogue) (entry : Aliased String) : List String :=
  (storedColumns store entry).map fun c => entry.displayName ++ "." ++ c

/-- Have no two columns of the two listed tables one name in a trace? -/
def NamedApart (store : Catalogue) (a b : Aliased String) : Prop :=
  ∀ c ∈ storedColumns store a, ∀ d ∈ storedColumns store b,
    a.displayName ++ "." ++ c ≠ b.displayName ++ "." ++ d

theorem qualify_injective (name : String) : Function.Injective fun c => name ++ "." ++ c := by
  intro c d h
  have hlists : name.toList ++ '.' :: c.toList = name.toList ++ '.' :: d.toList := by
    rw [← Pick.toList_qualify, ← Pick.toList_qualify]
    exact congrArg String.toList h
  exact String.toList_inj.mp (by simpa using hlists)

theorem columns_of_mapM {store : Catalogue} {entries : List (Aliased String)} {ts : List Table}
    (h : entries.mapM (source store) = .ok ts) :
    ts.map (·.columns) = entries.map (namedColumns store) := by
  induction entries generalizing ts with
  | nil =>
    rw [List.mapM_nil] at h
    cases h
    rfl
  | cons entry entries ih =>
    rw [List.mapM_cons] at h
    obtain ⟨t, ht, h⟩ := except_bind_eq_ok.mp h
    obtain ⟨rest, hrest, h⟩ := except_bind_eq_ok.mp h
    cases h
    obtain ⟨u, hu, rfl⟩ := source_eq_ok_iff.mp ht
    rw [List.map_cons, List.map_cons, ih hrest, namedColumns, storedColumns, hu]
    rfl

theorem disjoint_namedColumns {store : Catalogue} {a b : Aliased String} :
    (namedColumns store a).Disjoint (namedColumns store b) ↔ NamedApart store a b := by
  constructor
  · intro h c hc d hd heq
    exact h (List.mem_map_of_mem hc) (heq ▸ List.mem_map_of_mem hd)
  · intro h name ha hb
    obtain ⟨c, hc, rfl⟩ := List.mem_map.mp ha
    obtain ⟨d, hd, heq⟩ := List.mem_map.mp hb
    exact h c hc d hd heq.symm

/-- The columns of the product are those of the listed tables with their names in front. -/
theorem columns_joined {store : Catalogue} {entries : List (Aliased String)} {ts : List Table}
    (h : entries.mapM (source store) = .ok ts) :
    (joined ts).columns = entries.flatMap (namedColumns store) := by
  show ts.flatMap (·.columns) = _
  rw [List.flatMap_def, columns_of_mapM h, ← List.flatMap_def]

/-- These are different names if those of each table are, and those of any two listed tables are
named apart. -/
theorem nodup_namedColumns_iff {store : Catalogue} (entries : List (Aliased String))
    (hstore : ∀ name t, stored store name = .ok t → t.columns.Nodup) :
    (entries.flatMap (namedColumns store)).Nodup ↔ entries.Pairwise (NamedApart store) := by
  have hsingle : ∀ entry ∈ entries, (namedColumns store entry).Nodup := by
    intro entry _
    refine List.Nodup.map (qualify_injective _) ?_
    unfold storedColumns
    split
    · next t ht => exact hstore _ t ht
    · exact List.nodup_nil
  rw [List.nodup_flatMap, and_iff_right hsingle]
  exact List.Pairwise.iff fun a b => disjoint_namedColumns

/-- Names of tables without points tell their columns apart, unless they are the same. -/
theorem namedApart_iff {store : Catalogue} {a b : Aliased String}
    (ha : '.' ∉ a.displayName.toList) (hb : '.' ∉ b.displayName.toList) :
    NamedApart store a b ↔ a.displayName = b.displayName →
      (storedColumns store a).Disjoint (storedColumns store b) := by
  constructor
  · intro h hname c hc hd
    exact h c hc c hd (by rw [hname])
  · intro h c hc d hd heq
    obtain ⟨hname, rfl⟩ := (Pick.qualify_inj ha hb).mp heq
    exact h hname hc hd

/-! ### Names in a trace -/

/-- **Names of columns in a trace.**  If no stored table has two columns of one name, neither has a
table of a trace, and each of its columns is the one that its name means — provided that no two
listed tables have columns that are named alike.  That is so if the tables go by different names
without points, or by one name but have no column in common.  Where it is not so, a step shows the
product, which has the columns of all listed tables, and two of them are of one name. -/
theorem ofSelect_distinct_iff (st : Statement) {s : Setting} {p p' : Progress} {steps : List Step}
    (hstore : ∀ name t, stored s.store name = .ok t → t.columns.Nodup)
    (h : ofSelect s st.select p = (.ok steps, p')) :
    (ColumnsOf (fun columns => columns.Nodup ∧ Addressable columns) steps ↔
      st.select.tables.Pairwise (NamedApart s.store)) ∧
    (¬ st.select.tables.Pairwise (NamedApart s.store) →
      ∃ t, ⟨.join, [.plain t]⟩ ∈ steps ∧
        t.columns = st.select.tables.flatMap (namedColumns s.store) ∧ ¬ t.columns.Nodup) ∧
    ((∀ entry ∈ st.select.tables, '.' ∉ entry.displayName.toList) →
      (st.select.tables.Pairwise (NamedApart s.store) ↔
        st.select.tables.Pairwise fun a b => a.displayName = b.displayName →
          (storedColumns s.store a).Disjoint (storedColumns s.store b))) := by
  have hboth : ∀ columns : List String, columns.Nodup ∧ Addressable columns ↔ columns.Nodup :=
    fun columns => and_iff_left_of_imp nodup_iff_addressable.mp
  refine ⟨?_, fun hclash => ?_, fun hpointless => ?_⟩
  · by_cases hq : st.select.tables = []
    · rw [ofSelect_of_no_tables hq] at h
      cases h
      rw [hq]
      exact iff_of_true columnsOf_nil List.Pairwise.nil
    · obtain ⟨ts, hts, hcolumns, kind, hshown, -⟩ := ensures_columnsOf s hq p steps p' h
      rw [← nodup_namedColumns_iff _ hstore, ← columns_joined hts]
      constructor
      · intro hall
        exact (hall _ hshown _ List.mem_cons_self).1
      · intro hnodup
        refine hcolumns.mono fun columns hmem => (hboth columns).mpr ?_
        rcases List.mem_cons.mp hmem with rfl | hmem
        · exact hnodup
        -- the columns of a listed table are among those of the product
        · obtain ⟨t, ht, rfl⟩ := List.mem_map.mp hmem
          exact (List.nodup_flatMap.mp hnodup).1 t ht
  · have hq : st.select.tables ≠ [] := by
      intro hq
      rw [hq] at hclash
      exact hclash .nil
    obtain ⟨ts, hts, -, kind, hshown, rfl | hone⟩ := ensures_columnsOf s hq p steps p' h
    · refine ⟨joined ts, hshown, columns_joined hts, ?_⟩
      rwa [columns_joined hts, nodup_namedColumns_iff _ hstore]
    -- a table that is alone has no other to clash with
    · rw [mapM_length hts] at hone
      obtain ⟨entry, hentry⟩ := List.length_eq_one_iff.mp hone
      rw [hentry] at hclash
      exact absurd (List.pairwise_singleton _ entry) hclash
  · refine List.Pairwise.iff_of_mem fun {a b} ha hb => ?_
    exact namedApart_iff (hpointless a ha) (hpointless b hb)

/-- A table with itself under another name. -/
def tableAndTwin : Statement :=
  .query { columns := [⟨.column "*", none⟩], tables := [⟨"t", none⟩, ⟨"t", some "u"⟩] }

/-- A table with itself. -/
def tableTwice : Statement :=
  .query { columns := [⟨.column "*", none⟩], tables := [⟨"t", none⟩, ⟨"t", none⟩] }

/-- The tables of the store have one column each. -/
theorem nodup_lettersEverywhere (name : String) (t : Table)
    (h : stored lettersEverywhere.store name = .ok t) : t.columns.Nodup := by
  have hletters : stored lettersEverywhere.store name = .ok ⟨["x"], [[.text "a"], [.text "b"]]⟩ :=
    rfl
  rw [hletters] at h
  cases h
  decide

/-- With its twin, a table is in a trace in which all columns have their names for themselves; with
itself, it makes a product of two columns of one name. -/
theorem ofSelect_distinct_tableAndTwin :
    (∀ name t, stored lettersEverywhere.store name = .ok t → t.columns.Nodup) ∧
    (∃ steps p', ofSelect lettersEverywhere tableAndTwin.select {} = (.ok steps, p') ∧
      (∀ entry ∈ tableAndTwin.select.tables, '.' ∉ entry.displayName.toList) ∧
      ColumnsOf (fun columns => columns.Nodup ∧ Addressable columns) steps) ∧
    ∃ steps p', ofSelect lettersEverywhere tableTwice.select {} = (.ok steps, p') ∧
      ∃ t, ⟨.join, [.plain t]⟩ ∈ steps ∧ t.columns = ["t.x", "t.x"] := by
  obtain ⟨steps, p', h⟩ : ∃ steps p',
      ofSelect lettersEverywhere tableAndTwin.select {} = (.ok steps, p') := ⟨_, _, rfl⟩
  have hpointless : ∀ entry ∈ tableAndTwin.select.tables, '.' ∉ entry.displayName.toList := by
    decide
  obtain ⟨hdistinct, -, hnames⟩ := ofSelect_distinct_iff tableAndTwin nodup_lettersEverywhere h
  obtain ⟨steps', q', h'⟩ : ∃ steps p',
      ofSelect lettersEverywhere tableTwice.select {} = (.ok steps, p') := ⟨_, _, rfl⟩
  obtain ⟨-, hjoin, -⟩ := ofSelect_distinct_iff tableTwice nodup_lettersEverywhere h'
  have hclash : ¬ tableTwice.select.tables.Pairwise (NamedApart lettersEverywhere.store) := by
    intro hapart
    exact List.pairwise_pair.mp hapart "x" (by decide) "x" (by decide) rfl
  refine ⟨nodup_lettersEverywhere, ⟨steps, p', h, hpointless, hdistinct.mpr ?_⟩, ?_⟩
  · refine (hnames hpointless).mpr (List.pairwise_pair.mpr fun hname => ?_)
    exact absurd hname (by decide)
  · obtain ⟨t, ht, hcolumns, -⟩ := hjoin hclash
    exact ⟨steps', q', h', t, ht, hcolumns⟩

/-- A table that is listed twice makes a trace with two columns of one name. -/
theorem outcome_tableTwice :
    (∀ name t, stored lettersEverywhere.store name = .ok t → t.columns.Nodup) ∧
    Statement.parse "SELECT * FROM t, t" = .ok tableTwice ∧
    ∃ steps, (outcome lettersEverywhere "SELECT * FROM t, t").1 = .ok steps ∧
      ¬ ColumnsOf List.Nodup steps := by
  have hparse : Statement.parse "SELECT * FROM t, t" = .ok tableTwice := by decide +kernel
  obtain ⟨steps, p', h⟩ : ∃ steps p',
      ofSelect lettersEverywhere tableTwice.select {} = (.ok steps, p') := ⟨_, _, rfl⟩
  have houtcome : (outcome lettersEverywhere "SELECT * FROM t, t").1 = .ok steps := by
    show (ofText lettersEverywhere "SELECT * FROM t, t" {}).1 = _
    rw [ofText, Run.bind_apply, Run.ofExcept_apply, hparse]
    exact congrArg Prod.fst h
  refine ⟨nodup_lettersEverywhere, hparse, steps, houtcome, fun hall => ?_⟩
  obtain ⟨ts, hts, -, kind, hshown, -⟩ := ensures_columnsOf _ (by decide) _ _ _ h
  have hcolumns : (joined ts).columns = ["t.x", "t.x"] := by
    cases hts
    decide
  have hnodup : (joined ts).columns.Nodup := hall _ hshown _ List.mem_cons_self
  rw [hcolumns] at hnodup
  exact absurd hnodup (by decide)

end Trace

end QueryTrace

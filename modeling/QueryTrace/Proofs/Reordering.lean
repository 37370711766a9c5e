/-
The order of the listed tables does not change which rows a query keeps.

A query without groups whose condition names all its columns with their tables may list its tables
in any order.  The rows come in another order then, and so do the columns, but the combinations of
rows that are kept are the same, each as often as before; and where one order fails, so does the
other.

* **`Scope.evaluate_eq_valueOn`** — the value of such a condition depends on the record of the row
  alone, so it is the same wherever the columns stand;
* **`restrict_together`** — the filtered products of two orders have the same rows, and
  `result_together` says so of the results of queries;
* **`ofSelect_reorder`** — the same for whole traces.

Design notes: the two orders may fail differently, since they come to another table or another row
first.  They are therefore compared by `Together`, which tells success from failure and leaves the
failures themselves alone.
-/
import QueryTrace.Proofs.Records
import QueryTrace.Proofs.Refinement

namespace QueryTrace

/-! ### Outcomes that go together -/

section Together

variable {ε ε' α β γ δ : Type}

/-- Both succeed, with values in the relation, or both fail. -/
def Together (R : α → β → Prop) : Except ε α → Except ε' β → Prop
  | .ok a, .ok b => R a b
  | .error _, .error _ => True
  | _, _ => False

namespace Together

variable {R : α → β → Prop} {x : Except ε α} {y : Except ε' β}

theorem error_or_ok (h : Together R x y) :
    (∃ e e', x = .error e ∧ y = .error e') ∨ ∃ a b, x = .ok a ∧ y = .ok b ∧ R a b := by
  cases x with
  | ok a =>
    cases y with
    | ok b => exact .inr ⟨a, b, rfl, rfl, h⟩
    | error e => exact h.elim
  | error e =>
    cases y with
    | ok b => exact h.elim
    | error e' => exact .inl ⟨e, e', rfl, rfl⟩

theorem bind {S : γ → δ → Prop} {f : α → Except ε γ} {g : β → Except ε' δ} (h : Together R x y)
    (hf : ∀ a b, x = .ok a → y = .ok b → R a b → Together S (f a) (g b)) :
    Together S (x >>= f) (y >>= g) := by
  rcases h.error_or_ok with ⟨e, e', rfl, rfl⟩ | ⟨a, b, rfl, rfl, hab⟩
  · trivial
  · exact hf a b rfl rfl hab

theorem mono {S : α → β → Prop} (h : Together R x y)
    (hRS : ∀ a b, x = .ok a → y = .ok b → R a b → S a b) : Together S x y := by
  rcases h.error_or_ok with ⟨e, e', rfl, rfl⟩ | ⟨a, b, rfl, rfl, hab⟩
  · trivial
  · exact hRS a b rfl rfl hab

theorem symm (h : Together R x y) : Together (fun b a => R a b) y x := by
  cases x <;> cases y <;> exact h

theorem trans {ε'' : Type} {S : β → γ → Prop} {z : Except ε'' γ} (h : Together R x y)
    (h' : Together S y z) : Together (fun a c => ∃ b, R a b ∧ S b c) x z := by
  rcases h.error_or_ok with ⟨e, e', rfl, rfl⟩ | ⟨a, b, rfl, rfl, hab⟩
  · cases z with
    | ok c => exact h'.elim
    | error e'' => trivial
  · cases z with
    | ok c => exact ⟨b, hab, h'⟩
    | error e'' => exact h'.elim

theorem mapError {ε₁ ε₁' : Type} (cause : ε → ε₁) (cause' : ε' → ε₁') (h : Together R x y) :
    Together R (x.mapError cause) (y.mapError cause') := by
  cases x <;> cases y <;> exact h

theorem of_map {f : α → γ} {g : β → δ} {S : γ → δ → Prop} (h : Together S (x.map f) (y.map g)) :
    Together (fun a b => S (f a) (g b)) x y := by
  cases x <;> cases y <;> exact h

/-- A calculation for each item of a list succeeds or fails in any order of the list. -/
theorem mapM_perm {f : α → Except ε β} {l l' : List α} (h : l.Perm l') :
    Together List.Perm (l.mapM f) (l'.mapM f) := by
  induction h with
  | nil => exact .refl []
  | cons a _ ih =>
    rw [List.mapM_cons, List.mapM_cons]
    cases f a with
    | error e => trivial
    | ok b => exact ih.bind fun bs bs' _ _ hbs => hbs.cons b
  | swap a b l =>
    simp only [List.mapM_cons]
    cases f a with
    | error e => cases f b <;> trivial
    | ok c =>
      cases f b with
      | error e => trivial
      | ok d =>
        cases l.mapM f with
        | error e => trivial
        | ok bs => exact .swap c d bs
  | trans _ _ ih₁ ih₂ => exact (ih₁.trans ih₂).mono fun _ _ _ _ ⟨_, h₁, h₂⟩ => h₁.trans h₂

theorem keep_perm {test : α → Except ε Bool} {l l' : List α} (h : l.Perm l') :
    Together List.Perm (Relational.keep test l) (Relational.keep test l') := by
  rw [Trace.keep_eq_judged, Trace.keep_eq_judged]
  exact (mapM_perm h).bind fun judged judged' _ _ hj => (hj.filter _).map _

/-- A run goes together with the calculation that it follows. -/
theorem of_follows {x : Run α} {r : Except Failure β} (h : x.Follows R r) (p : Progress) :
    Together R (x p).1 r := by
  have hp := h p
  revert hp
  cases (x p).1 <;> cases r <;> simp [Together]

end Together

end Together

/-! ### Conditions on records -/

namespace Expr

/-- Does every name in the expression come with its table?  An aggregate is not looked into, since
it fails on rows that are in no group. -/
def QualifiedOnly : Expr → Prop
  | column _ => False
  | binary _ l r => l.QualifiedOnly ∧ r.QualifiedOnly
  | _ => True

/-- The value of an expression on a record. -/
def valueOn (f : String → Option Value) (e : Expr) : Except EvalError Value :=
  let names : Names := fun name _ =>
    match f name with
    | some v => .ok v
    | none => .error (.unknownColumn name)
  e.evalUsing names none []

/-- Is a condition true of a record? -/
def holdsOn (e : Expr) (f : String → Option Value) : Except EvalError Bool := do
  let v ← e.valueOn f
  return v.truthy

end Expr

/-- Is the name that of a table, a point, and that of a column, with no other point in it? -/
def IsQualified (name : String) : Prop :=
  ∃ d c : String, '.' ∉ d.toList ∧ '.' ∉ c.toList ∧ name = d ++ "." ++ c

/-- Has no alias of the select list a point in it? -/
def AliasesPointless (aliases : List (Aliased Expr)) : Prop :=
  ∀ entry ∈ aliases, ∀ name, entry.name? = some name → '.' ∉ name.toList

/-- Among the columns of a join, a name with a point in it means a whole name. -/
theorem columnIndex?_of_point {columns : List String} (hc : ∀ c ∈ columns, IsQualified c)
    {name : String} (hn : '.' ∈ name.toList) :
    columnIndex? columns name = columns.findIdx? (· == name) := by
  have hsuffix : (columns.findIdx? fun c => suffix? c == some name) = none := by
    rw [List.findIdx?_eq_none_iff]
    intro n hmem
    obtain ⟨d, c, hd, hcp, rfl⟩ := hc n hmem
    rw [Pick.suffix?_qualify c hd, beq_eq_false_iff_ne]
    rintro ⟨⟩
    exact hcp hn
  rw [columnIndex?, hsuffix, Option.or_none]

namespace Scope

variable {scope : Scope} {row : Row}

/-- On the rows of a join, a name with a point in it means a cell of the record or nothing. -/
theorem resolve_of_point (hc : ∀ c ∈ scope.columns, IsQualified c)
    (ha : AliasesPointless scope.aliases) (hl : row.length = scope.columns.length)
    {name : String} (hn : '.' ∈ name.toList) (steps : Nat) :
    scope.resolve steps name row =
      match Relational.record scope.columns row name with
      | some v => .ok v
      | none => .error (.unknownColumn name) := by
  have hindex := columnIndex?_of_point hc hn
  by_cases hmem : name ∈ scope.columns
  · obtain ⟨v, hv, hcell⟩ := Pick.lookup_zip hl hmem
    rw [Pick.findIdx?_of_mem hmem] at hindex
    rw [resolve_of_columnIndex? hindex, Relational.record, hv, cell, hcell]
  · have hnone : scope.columns.findIdx? (· == name) = none := by
      rw [List.findIdx?_eq_none_iff]
      intro c hcmem
      rw [beq_eq_false_iff_ne]
      rintro rfl
      exact hmem hcmem
    have halias : scope.definition? name = none := by
      refine List.find?_eq_none.mpr fun entry hentry => ?_
      simp only [beq_iff_eq]
      exact fun hname => ha entry hentry name hname hn
    rw [Relational.record_eq_none hmem]
    cases steps <;> simp [resolve, hindex, hnone, halias]

/-- **A condition depends on the record alone.**  The place of a column in the row does not take
part in the value, nor do the aliases. -/
theorem evaluate_eq_valueOn (hc : ∀ c ∈ scope.columns, IsQualified c)
    (ha : AliasesPointless scope.aliases) (hg : scope.group = none)
    (hl : row.length = scope.columns.length) {e : Expr} (he : e.QualifiedOnly) :
    scope.evaluate e row = e.valueOn (Relational.record scope.columns row) := by
  induction e with
  | number raw => rfl
  | text content => rfl
  | column name => exact he.elim
  | qualified table name => exact resolve_of_point hc ha hl (by simp) _
  | aggregate function argument _ =>
    simp only [evaluate, Expr.valueOn, Expr.evalUsing, hg]
  | binary op l r ihl ihr =>
    rw [evaluate_binary, ihl he.1, ihr he.2]
    rfl

end Scope

namespace Relational

/-! ### The names in a product -/

/-- Do no two listed tables go by one name, has no stored table two columns of one name, and is
there no point in any of the names? -/
structure WellNamed (store : Catalogue) (entries : List (Aliased String)) : Prop where
  namesDistinct : (entries.map (·.displayName)).Nodup
  namesPointless : ∀ entry ∈ entries, '.' ∉ entry.displayName.toList
  columnsDistinct : ∀ entry ∈ entries, ∀ t, stored store entry.item = .ok t → t.columns.Nodup
  columnsPointless : ∀ entry ∈ entries, ∀ t, stored store entry.item = .ok t →
    ∀ c ∈ t.columns, '.' ∉ c.toList

section Load

variable {store : Catalogue} {entries : List (Aliased String)} {ts : List Table}

theorem WellNamed.isQualified (h : WellNamed store entries)
    (hl : entries.mapM (source store) = .ok ts) : ∀ c ∈ (joined ts).columns, IsQualified c := by
  intro c hc
  obtain ⟨t, ht, hc⟩ := List.mem_flatMap.mp hc
  obtain ⟨entry, hentry, hsource⟩ := exists_of_mem_mapM hl t ht
  obtain ⟨u, hu, rfl⟩ := source_eq_ok_iff.mp hsource
  obtain ⟨b, hb, rfl⟩ := List.mem_map.mp hc
  exact ⟨entry.displayName, b, h.namesPointless entry hentry,
    h.columnsPointless entry hentry u hu b hb, rfl⟩

theorem WellNamed.columns_nodup (h : WellNamed store entries)
    (hl : entries.mapM (source store) = .ok ts) : (joined ts).columns.Nodup := by
  refine List.nodup_flatMap.mpr ⟨fun t ht => ?_, ?_⟩
  · obtain ⟨entry, hentry, hsource⟩ := exists_of_mem_mapM hl t ht
    obtain ⟨u, hu, rfl⟩ := source_eq_ok_iff.mp hsource
    refine (h.columnsDistinct entry hentry u hu).map fun b c hbc => ?_
    have hp := h.namesPointless entry hentry
    exact ((Pick.qualify_inj hp hp).mp hbc).2
  · refine pairwise_of_mapM (List.pairwise_map.mp h.namesDistinct) hl ?_
    intro entry hentry entry' hentry' t t' ht ht' hne
    obtain ⟨u, -, rfl⟩ := source_eq_ok_iff.mp ht
    obtain ⟨u', -, rfl⟩ := source_eq_ok_iff.mp ht'
    -- a name in both tables would begin with both of their names
    intro c hc hc'
    obtain ⟨b, -, rfl⟩ := List.mem_map.mp hc
    obtain ⟨b', -, hb'⟩ := List.mem_map.mp hc'
    have hp := h.namesPointless entry hentry
    have hp' := h.namesPointless entry' hentry'
    exact hne ((Pick.qualify_inj hp' hp).mp hb').1.symm

end Load

/-! ### Filtered products -/

/-- Is `t'` the table `t` with its rows and its columns in another order?  The columns have distinct
names, so there is only one way in which the cells can have moved. -/
structure Reordered (t t' : Table) : Prop where
  rectangular : t.Rectangular
  distinct : t.columns.Nodup
  columns : t'.columns.Perm t.columns
  rows : t'.rows.Perm (t.rows.map (rearrange t.columns t'.columns))

section Keep

variable {ε α β : Type}

theorem keep_congr {test test' : α → Except ε Bool} {l : List α}
    (h : ∀ a ∈ l, test a = test' a) : keep test l = keep test' l := by
  induction l with
  | nil => rfl
  | cons a l ih => rw [keep, keep, h a (by simp), ih fun b hb => h b (by simp [hb])]

theorem keep_map (test : β → Except ε Bool) (f : α → β) (l : List α) :
    keep test (l.map f) = (keep (fun a => test (f a)) l).map (List.map f) := by
  induction l with
  | nil => rfl
  | cons a l ih =>
    rw [List.map_cons, keep, keep, ih]
    cases test (f a) with
    | error e => rfl
    | ok holds =>
      cases keep (fun a => test (f a)) l with
      | error e => rfl
      | ok rest => cases holds <;> rfl

theorem mem_of_keep {test : α → Except ε Bool} {l kept : List α} (h : keep test l = .ok kept) :
    ∀ a ∈ kept, a ∈ l := by
  induction l generalizing kept with
  | nil =>
    cases h
    simp
  | cons b l ih =>
    rw [keep] at h
    obtain ⟨holds, -, h⟩ := except_bind_eq_ok.mp h
    obtain ⟨rest, hrest, h⟩ := except_bind_eq_ok.mp h
    cases h
    intro a hmem
    cases holds with
    | true =>
      rcases List.mem_cons.mp hmem with rfl | hmem
      · simp
      · simp [ih hrest a hmem]
    | false => simp [ih hrest a hmem]

end Keep

theorem reordered_of_records {columns columns' : List String} {rows rows' : List Row}
    (hd : columns.Nodup) (hc : columns'.Perm columns)
    (hl : ∀ row ∈ rows, row.length = columns.length)
    (hl' : ∀ row ∈ rows', row.length = columns'.length)
    (h : (rows'.map (record columns')).Perm (rows.map (record columns))) :
    Reordered ⟨columns, rows⟩ ⟨columns', rows'⟩ where
  rectangular := hl
  distinct := hd
  columns := hc
  rows := rows_perm_of_records (hc.nodup_iff.mpr hd) hl' h

section Restrict

variable {aliases : List (Aliased Expr)} {ts ts' : List Table}

/-- To filter rows is to filter the records that they are. -/
theorem keep_records {e : Expr} (he : e.QualifiedOnly) (ha : AliasesPointless aliases)
    (hr : ∀ t ∈ ts, t.Rectangular) (hq : ∀ c ∈ (joined ts).columns, IsQualified c) :
    (keep (fun row => do
      let v ← Scope.evaluate { columns := (joined ts).columns, aliases } e row
      return v.truthy) (product ts)).map (List.map (record (joined ts).columns)) =
        keep e.holdsOn (records ts) := by
  rw [records, keep_map]
  congr 1
  refine keep_congr fun row hrow => ?_
  have hl : row.length = (joined ts).columns.length := Trace.joined_rectangular hr row hrow
  rw [Scope.evaluate_eq_valueOn hq ha rfl hl he]
  rfl

/-- **The order of the tables does not matter to a filter.**  Rearranged tables have a product that
is filtered to the same rows, or both filters fail. -/
theorem restrict_together {condition : Option Expr} (hp : ts'.Perm ts)
    (hr : ∀ t ∈ ts, t.Rectangular) (hd : (joined ts).columns.Nodup)
    (hq : ∀ c ∈ (joined ts).columns, IsQualified c) (ha : AliasesPointless aliases)
    (he : ∀ e, condition = some e → e.QualifiedOnly) :
    Together Reordered (restrict aliases condition (joined ts))
      (restrict aliases condition (joined ts')) := by
  have hc : (joined ts').columns.Perm (joined ts).columns := hp.flatMap_right _
  have hr' : ∀ t ∈ ts', t.Rectangular := fun t ht => hr t (hp.mem_iff.mp ht)
  have hq' : ∀ c ∈ (joined ts').columns, IsQualified c := fun c hmem => hq c (hc.mem_iff.mp hmem)
  have hdisjoint := (List.nodup_flatMap.mp (hc.nodup_iff.mpr hd)).2
  have hrecords : (records ts').Perm (records ts) := records_perm hp hr' hdisjoint
  cases condition with
  | none =>
    have hl := Trace.joined_rectangular hr
    have hl' := Trace.joined_rectangular hr'
    exact reordered_of_records hd hc hl hl' hrecords
  | some e =>
    have hkept : Together List.Perm (keep e.holdsOn (records ts)) (keep e.holdsOn (records ts')) :=
      Together.keep_perm hrecords.symm
    rw [← keep_records (he e rfl) ha hr hq, ← keep_records (he e rfl) ha hr' hq'] at hkept
    refine hkept.of_map.bind fun rows rows' hrows hrows' hperm => ?_
    have hl : ∀ row ∈ rows, row.length = (joined ts).columns.length := fun row hrow =>
      Trace.joined_rectangular hr row (mem_of_keep hrows row hrow)
    have hl' : ∀ row ∈ rows', row.length = (joined ts').columns.length := fun row hrow =>
      Trace.joined_rectangular hr' row (mem_of_keep hrows' row hrow)
    exact reordered_of_records hd hc hl hl' hperm.symm

theorem restrict_columns {condition : Option Expr} {t t' : Table}
    (h : restrict aliases condition t = .ok t') : t'.columns = t.columns := by
  cases condition with
  | none =>
    cases h
    rfl
  | some e =>
    obtain ⟨rows, -, h⟩ := except_bind_eq_ok.mp h
    cases h
    rfl

end Restrict

/-! ### The algebra -/

/-- A query without groups results in its filtered product. -/
theorem result_of_ungrouped (store : Catalogue) {q : Select} (hg : q.groupBy = none)
    (hh : q.having = none) :
    result store q = (do
      let ts ← q.tables.mapM (source store)
      let t ← (restrict q.columns q.filter (joined ts)).mapError Failure.evaluation
      return [t]) := by
  rw [result, hg, hh]
  congr 1
  funext ts
  cases restrict q.columns q.filter (joined ts) <;> rfl

/-- Is either result one table, with the columns of the loaded tables side by side as the entries
are listed, and is the one the other in another order? -/
def ResultsReordered (store : Catalogue) (entries entries' : List (Aliased String))
    (out out' : List Table) : Prop :=
  ∃ ts ts' t t', entries.mapM (source store) = .ok ts ∧ entries'.mapM (source store) = .ok ts' ∧
    out = [t] ∧ out' = [t'] ∧ t.columns = ts.flatMap (·.columns) ∧
    t'.columns = ts'.flatMap (·.columns) ∧ Reordered t t'

/-- Reordered tables give reordered results, or no result in either order. -/
theorem result_together {store : Catalogue} {q : Select} {entries : List (Aliased String)}
    (hp : entries.Perm q.tables) (hg : q.groupBy = none) (hh : q.having = none)
    (he : ∀ e, q.filter = some e → e.QualifiedOnly) (hn : WellNamed store q.tables)
    (ha : AliasesPointless q.columns) :
    Together (ResultsReordered store q.tables entries) (result store q)
      (result store { q with tables := entries }) := by
  have hg' : { q with tables := entries }.groupBy = none := hg
  rw [result_of_ungrouped store hg hh, result_of_ungrouped store hg' hh]
  refine (Together.mapM_perm hp.symm).bind fun ts ts' hts hts' hperm => ?_
  have hr : ∀ t ∈ ts, t.Rectangular := forall_mem_of_mapM hts fun _ _ => source_rectangular
  have hfiltered : Together (fun t t' => t.columns = ts.flatMap (·.columns) ∧
      t'.columns = ts'.flatMap (·.columns) ∧ Reordered t t')
      (restrict q.columns q.filter (joined ts)) (restrict q.columns q.filter (joined ts')) := by
    have h := restrict_together hperm.symm hr (hn.columns_nodup hts) (hn.isQualified hts) ha he
    exact h.mono fun t t' ht ht' hre => ⟨restrict_columns ht, restrict_columns ht', hre⟩
  refine (hfiltered.mapError Failure.evaluation Failure.evaluation).bind fun t t' _ _ h => ?_
  exact ⟨ts, ts', t, t', hts, hts', rfl, rfl, h⟩

end Relational

namespace Trace

open Relational

/-! ### The whole trace -/

/-- Is the size of the product within the limits, if there is a product to be made? -/
def SizeChecked (s : Setting) (entries : List (Aliased String)) : Prop :=
  ∀ ts, entries.mapM (source s.store) = .ok ts → ts.length ≠ 1 →
    ∃ n, productSize s.limits ts = .ok n

theorem follows_ofSelect_of_sizeChecked {s : Setting} {q : Select} (hq : q.tables ≠ [])
    (hb : s.limits.timeBudget = none) (hs : SizeChecked s q.tables) :
    (ofSelect s q).Follows (fun steps ts => finalTables steps = some ts)
      (Relational.result s.store q) := by
  refine follows_ofSelect_of_productSize hq hb fun ts hts hlen => ?_
  obtain ⟨n, hn⟩ := hs ts hts hlen
  rw [hn, eq_size_of_productSize hn]

/-- **The order of the tables does not matter to a query without groups.**  If its condition names
columns with their tables, then the traces of two orders both fail, or they end in tables with the
same rows, up to the order of the rows and that of the columns. -/
theorem ofSelect_reorder {s : Setting} {q : Select} {entries : List (Aliased String)}
    (hp : entries.Perm q.tables) (hg : q.groupBy = none) (hh : q.having = none)
    (he : ∀ e, q.filter = some e → e.QualifiedOnly) (hn : WellNamed s.store q.tables)
    (ha : AliasesPointless q.columns) (hb : s.limits.timeBudget = none)
    (hs : SizeChecked s q.tables) (hs' : SizeChecked s entries) (p p' : Progress) :
    (∃ e e', (ofSelect s q p).1 = .error e ∧
      (ofSelect s { q with tables := entries } p').1 = .error e') ∨
    (∃ steps steps', (ofSelect s q p).1 = .ok steps ∧
      (ofSelect s { q with tables := entries } p').1 = .ok steps' ∧
      (q.tables = [] ∧ steps = [] ∧ steps' = [] ∨
        ∃ out out', finalTables steps = some out ∧ finalTables steps' = some out' ∧
          ResultsReordered s.store q.tables entries out out')) := by
  by_cases hq : q.tables = []
  · have hq' : { q with tables := entries }.tables = [] := by
      rw [hq] at hp
      exact hp.eq_nil
    rw [ofSelect_of_no_tables hq, ofSelect_of_no_tables hq']
    exact .inr ⟨[], [], rfl, rfl, .inl ⟨hq, rfl, rfl⟩⟩
  · have hq' : { q with tables := entries }.tables ≠ [] := by
      intro hnil
      rw [show entries = [] from hnil] at hp
      exact hq hp.symm.eq_nil
    have hleft := Together.of_follows (follows_ofSelect_of_sizeChecked hq hb hs) p
    have hright := Together.of_follows (follows_ofSelect_of_sizeChecked hq' hb hs') p'
    have htogether := (hleft.trans (result_together hp hg hh he hn ha)).trans hright.symm
    rcases htogether.error_or_ok with hfail | ⟨steps, steps', hx, hx', hends⟩
    · exact .inl hfail
    · obtain ⟨out', ⟨out, hout, hre⟩, hout'⟩ := hends
      exact .inr ⟨steps, steps', hx, hx', .inr ⟨out, out', hout, hout', hre⟩⟩

/-- Dogs with the names of their owners, and owners, two of whom have the same name. -/
def kennel : Setting where
  store question :=
    if question = "SELECT * FROM dogs;" then
      .ok [⟨["name", "owner"], [[.text "rex", .text "ann"], [.text "fido", .text "bob"]]⟩]
    else .ok [⟨["name"], [[.text "ann"], [.text "cid"], [.text "ann"]]⟩]

/-- The dogs whose owners are known. -/
def ownedDogs : Select where
  columns := [⟨.qualified "dogs" "name", some "dog"⟩]
  tables := [⟨"dogs", none⟩, ⟨"owners", some "o"⟩]
  filter := some (.binary .eq (.qualified "dogs" "owner") (.qualified "o" "name"))

/-- Owners before dogs. -/
def ownersFirst : List (Aliased String) :=
  [⟨"owners", some "o"⟩, ⟨"dogs", none⟩]

theorem ofSelect_ownersFirst : ownersFirst.Perm ownedDogs.tables ∧
    WellNamed kennel.store ownedDogs.tables ∧ AliasesPointless ownedDogs.columns ∧
    SizeChecked kennel ownedDogs.tables ∧ SizeChecked kennel ownersFirst ∧
    ∃ steps steps' out out', (ofSelect kennel ownedDogs {}).1 = .ok steps ∧
      (ofSelect kennel { ownedDogs with tables := ownersFirst } {}).1 = .ok steps' ∧
      finalTables steps = some out ∧ finalTables steps' = some out' ∧
      ResultsReordered kennel.store ownedDogs.tables ownersFirst out out' := by
  have hp : ownersFirst.Perm ownedDogs.tables := .swap _ _ []
  have hcolumns : ∀ entry ∈ ownedDogs.tables, ∀ t, stored kennel.store entry.item = .ok t →
      t.columns = ["name", "owner"] ∨ t.columns = ["name"] := by
    intro entry hentry t ht
    rcases List.mem_pair.mp hentry with rfl | rfl
    · cases ht
      exact .inl rfl
    · cases ht
      exact .inr rfl
  have hn : WellNamed kennel.store ownedDogs.tables := by
    refine ⟨by decide, by decide, fun entry hentry t ht => ?_, fun entry hentry t ht => ?_⟩
    · rcases hcolumns entry hentry t ht with h | h <;> (rw [h]; decide)
    · rcases hcolumns entry hentry t ht with h | h <;> (rw [h]; decide)
  have ha : AliasesPointless ownedDogs.columns := by
    simp [AliasesPointless, ownedDogs]
  have hs : SizeChecked kennel ownedDogs.tables := by
    rintro ts ⟨⟩ -
    exact ⟨6, rfl⟩
  have hs' : SizeChecked kennel ownersFirst := by
    rintro ts ⟨⟩ -
    exact ⟨6, rfl⟩
  have he : ∀ e, ownedDogs.filter = some e → e.QualifiedOnly := by
    rintro e ⟨⟩
    exact ⟨trivial, trivial⟩
  refine ⟨hp, hn, ha, hs, hs', ?_⟩
  rcases ofSelect_reorder hp rfl rfl he hn ha rfl hs hs' {} {} with
    ⟨e, e', hfail, -⟩ | ⟨steps, steps', hx, hx', ⟨hnil, -⟩ | ⟨out, out', h⟩⟩
  · have hok : (ofSelect kennel ownedDogs {}).1.isOk = true := rfl
    rw [hfail] at hok
    cases hok
  · cases hnil
  · exact ⟨steps, steps', out, out', hx, hx', h⟩

end Trace

end QueryTrace

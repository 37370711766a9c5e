/-
Aliases are macros.

A name that means no column may be an alias, and then it has the value of what it stands for.  One
could as well write the definition in its place, and do the same in the definition, until no name
stands for anything.  This file shows that evaluation comes to the same, although it never follows
more aliases than the select list has entries.

* `Scope.standsFor?` — what a name stands for, and `Scope.Expands` — an expression with each such
  name replaced, down to the last;
* `Scope.ReachesCycle` — some alias that the expression leads to leads back to itself;
* `Trail` — the aliases on the way to an expression, and `Trail.follow`: one more of them can be
  followed, since none is passed twice and there are no more of them than entries;
* `evalUsing_expands` and `Trail.neverCircular` — along a trail, evaluation is that of the expanded
  expression, and it finds no alias that refers to itself;
* `Scope.Yields` — evaluation by rules, with the number of aliases counted up from zero, and
  `yields_iff`: the rules give the value;
* **`evaluate_expands`** — all of this for the expressions that are evaluated.

Design notes: the star is apart.  Where rows are counted it is never looked up, so a star that comes
from an alias, or one that is an alias, would not be the star that is written there.
-/
import Mathlib.Data.List.Perm.Subperm
import Mathlib.Logic.Relation
import QueryTrace.Proofs.Grouping

namespace QueryTrace

open Relation (ReflTransGen TransGen)

/-! ### Names and what they stand for -/

namespace Expr

/-- The name that is looked up for a column or a qualified column. -/
def reference? : Expr → Option String
  | column name => some name
  | qualified table name => some (table ++ "." ++ name)
  | _ => none

/-- The names in an expression. -/
def mentioned : Expr → List String
  | column name => [name]
  | qualified table name => [table ++ "." ++ name]
  | aggregate _ argument => argument.mentioned
  | binary _ l r => l.mentioned ++ r.mentioned
  | _ => []

theorem mentioned_of_reference? {e : Expr} {name : String} (h : e.reference? = some name) :
    e.mentioned = [name] := by
  cases e <;> cases h <;> rfl

theorem evalUsing_of_reference? {e : Expr} {name : String} (h : e.reference? = some name)
    (names : Names) (group : Option (List Row)) (row : Row) :
    e.evalUsing names group row = names name row := by
  cases e <;> cases h <;> rfl

end Expr

namespace Scope

/-- What a name stands for: the first expression of the select list with that alias, unless the name
means a column. -/
def standsFor? (scope : Scope) (name : String) : Option Expr :=
  match columnIndex? scope.columns name with
  | some _ => none
  | none => (scope.definition? name).map (·.item)

/-- The scope of a query whose select list has no aliases. -/
def withoutAliases (scope : Scope) : Scope :=
  { scope with aliases := [] }

/-- Does the first name stand for an expression with the second one in it? -/
def Leads (scope : Scope) (n m : String) : Prop :=
  ∃ d, scope.standsFor? n = some d ∧ m ∈ d.mentioned

/-- Does a name in the expression lead to one that leads back to itself? -/
def ReachesCycle (scope : Scope) (e : Expr) : Prop :=
  ∃ n ∈ e.mentioned, ∃ m, ReflTransGen scope.Leads n m ∧ TransGen scope.Leads m m

/-- Is the star neither an alias nor given one? -/
def StarAlone (scope : Scope) : Prop :=
  ∀ entry ∈ scope.aliases,
    entry.name? ≠ some "*" ∧ (entry.item = .column "*" → entry.name? = none)

/-- The second expression is the first one with the names replaced by what they stand for, and the
same done to what they stand for. -/
inductive Expands (scope : Scope) : Expr → Expr → Prop where
  | number (raw : String) : Expands scope (.number raw) (.number raw)
  | text (content : String) : Expands scope (.text content) (.text content)
  | kept {e : Expr} {n : String} (hn : e.reference? = some n) (h : scope.standsFor? n = none) :
    Expands scope e e
  | replaced {e d e' : Expr} {n : String} (hn : e.reference? = some n)
    (h : scope.standsFor? n = some d) (hd : Expands scope d e') : Expands scope e e'
  | aggregate (function : String) {argument argument' : Expr}
    (h : Expands scope argument argument') :
    Expands scope (.aggregate function argument) (.aggregate function argument')
  | binary (op : BinOp) {l l' r r' : Expr} (hl : Expands scope l l') (hr : Expands scope r r') :
    Expands scope (.binary op l r) (.binary op l' r')

/-! ### Following a name -/

section Names

variable {scope : Scope} {n : String} {d : Expr}

theorem standsFor?_eq_some : scope.standsFor? n = some d ↔
    columnIndex? scope.columns n = none ∧ ∃ entry, scope.definition? n = some entry ∧
      entry.item = d := by
  unfold standsFor?
  cases columnIndex? scope.columns n <;> simp

theorem resolve_zero_of_alias (h : scope.standsFor? n = some d) (row : Row) :
    scope.resolve 0 n row = .error (.circularAlias n) := by
  obtain ⟨hc, entry, hd, -⟩ := standsFor?_eq_some.mp h
  simp [resolve, hc, hd]

theorem resolve_succ_of_alias (h : scope.standsFor? n = some d) (steps : Nat) (row : Row) :
    scope.resolve (steps + 1) n row = d.evalUsing (scope.resolve steps) scope.group row := by
  obtain ⟨hc, entry, hd, rfl⟩ := standsFor?_eq_some.mp h
  simp [resolve, hc, hd]

theorem resolve_of_unknown (hc : columnIndex? scope.columns n = none)
    (hd : scope.definition? n = none) (steps : Nat) (row : Row) :
    scope.resolve steps n row = .error (.unknownColumn n) := by
  cases steps <;> simp [resolve, hc, hd]

/-- A name means a column, or it means nothing, or it stands for an expression. -/
theorem lookup_cases (scope : Scope) (n : String) :
    (∃ i, columnIndex? scope.columns n = some i) ∨
    (columnIndex? scope.columns n = none ∧ scope.definition? n = none) ∨
    ∃ d, scope.standsFor? n = some d := by
  unfold standsFor?
  cases columnIndex? scope.columns n with
  | some i => exact .inl ⟨i, rfl⟩
  | none => cases scope.definition? n <;> simp

/-- Aliases take no part in a name that stands for nothing. -/
theorem resolve_of_kept (h : scope.standsFor? n = none) (steps : Nat) (row : Row) :
    scope.resolve steps n row = scope.withoutAliases.resolve 0 n row := by
  rcases scope.lookup_cases n with ⟨i, hc⟩ | ⟨hc, hd⟩ | ⟨d, hs⟩
  · have hc' : columnIndex? scope.withoutAliases.columns n = some i := hc
    rw [resolve_of_columnIndex? hc, resolve_of_columnIndex? hc']
  · have hc' : columnIndex? scope.withoutAliases.columns n = none := hc
    rw [resolve_of_unknown hc hd, resolve_of_unknown hc' rfl]
  · rw [h] at hs
    cases hs

end Names

/-! ### Expanded expressions -/

section Expanded

variable {scope : Scope} {n : String} {e e' : Expr}

theorem expands_reference_iff (hn : e.reference? = some n) : scope.Expands e e' ↔
    (scope.standsFor? n = none ∧ e' = e) ∨
      ∃ d, scope.standsFor? n = some d ∧ scope.Expands d e' := by
  constructor
  · intro h
    cases h with
    | kept hn' hs =>
      rw [hn] at hn'
      cases hn'
      exact .inl ⟨hs, rfl⟩
    | replaced hn' hs hd =>
      rw [hn] at hn'
      cases hn'
      exact .inr ⟨_, hs, hd⟩
    | number | text | aggregate | binary => cases hn
  · rintro (⟨hs, rfl⟩ | ⟨d, hs, hd⟩)
    · exact .kept hn hs
    · exact .replaced hn hs hd

theorem Expands.unique (h : scope.Expands e e') {e'' : Expr} (h' : scope.Expands e e'') :
    e'' = e' := by
  induction h generalizing e'' with
  | number raw =>
    cases h' with
    | number => rfl
    | kept hn | replaced hn => cases hn
  | text content =>
    cases h' with
    | text => rfl
    | kept hn | replaced hn => cases hn
  | kept hn hs => simpa [expands_reference_iff hn, hs] using h'
  | replaced hn hs _ ih => exact ih (by simpa [expands_reference_iff hn, hs] using h')
  | aggregate function _ ih =>
    cases h' with
    | aggregate _ h' => rw [ih h']
    | kept hn | replaced hn => cases hn
  | binary op _ _ ihl ihr =>
    cases h' with
    | binary _ hl hr => rw [ihl hl, ihr hr]
    | kept hn | replaced hn => cases hn

theorem standsFor?_mem {d : Expr} (h : scope.standsFor? n = some d) :
    ∃ entry ∈ scope.aliases, entry.name? = some n ∧ entry.item = d := by
  obtain ⟨-, entry, hd, rfl⟩ := standsFor?_eq_some.mp h
  refine ⟨entry, List.mem_of_find?_eq_some hd, ?_, rfl⟩
  simpa using List.find?_some hd

/-- Rows are counted for a star that is written there, and for no other. -/
theorem Expands.eq_star_iff (hstar : scope.StarAlone) (h : scope.Expands e e') :
    e' = .column "*" ↔ e = .column "*" := by
  induction h with
  | kept => rfl
  | @replaced e d e' n hn hs hd ih =>
    obtain ⟨entry, hentry, hname, rfl⟩ := standsFor?_mem hs
    obtain ⟨hne, hitem⟩ := hstar entry hentry
    constructor
    · intro he'
      rw [hitem (ih.mp he')] at hname
      cases hname
    · rintro rfl
      cases hn
      exact absurd hname hne
  | number | text | aggregate | binary => simp

theorem Expands.countsRows_eq (hstar : scope.StarAlone) (h : scope.Expands e e')
    (function : String) :
    Aggregate.countsRows function e' = Aggregate.countsRows function e := by
  have hstars : (e' == .column "*") = (e == .column "*") := by
    rw [Bool.eq_iff_iff, beq_iff_eq, beq_iff_eq, h.eq_star_iff hstar]
  rw [Aggregate.countsRows, Aggregate.countsRows, hstars]

end Expanded

/-! ### Trails -/

/-- The aliases that were passed on the way to an expression, when at most `steps` more may be
followed. -/
structure Trail (scope : Scope) (passed : List String) (steps : Nat) (e : Expr) : Prop where
  nodup : passed.Nodup
  aliases : ∀ n ∈ passed, ∃ d, scope.standsFor? n = some d
  room : scope.aliases.length ≤ passed.length + steps
  leads : ∀ n ∈ passed, ∀ m ∈ e.mentioned, TransGen scope.Leads n m
  acyclic : ¬ scope.ReachesCycle e

section Trails

variable {scope : Scope} {passed : List String} {steps : Nat} {n : String} {d e e' : Expr}

theorem trail_of_acyclic (h : ¬ scope.ReachesCycle e) :
    scope.Trail [] scope.aliases.length e where
  nodup := List.nodup_nil
  aliases := by simp
  room := by simp
  leads := by simp
  acyclic := h

theorem Trail.part (h : scope.Trail passed steps e) (he : ∀ m ∈ e'.mentioned, m ∈ e.mentioned) :
    scope.Trail passed steps e' where
  nodup := h.nodup
  aliases := h.aliases
  room := h.room
  leads := fun n hn m hm => h.leads n hn m (he m hm)
  acyclic := fun ⟨n, hn, hcycle⟩ => h.acyclic ⟨n, he n hn, hcycle⟩

/-- There are no more aliases than entries in the select list. -/
theorem length_le_of_aliases {l : List String} (hl : l.Nodup)
    (h : ∀ n ∈ l, ∃ d, scope.standsFor? n = some d) : l.length ≤ scope.aliases.length := by
  have hsub : l ⊆ scope.aliases.filterMap (·.name?) := by
    intro n hn
    obtain ⟨d, hd⟩ := h n hn
    obtain ⟨entry, hentry, hname, -⟩ := standsFor?_mem hd
    exact List.mem_filterMap.mpr ⟨entry, hentry, hname⟩
  exact Nat.le_trans (List.subperm_of_subset hl hsub).length_le (List.length_filterMap_le _ _)

/-- **One more alias can be followed.** -/
theorem Trail.follow (h : scope.Trail passed steps e) (hn : n ∈ e.mentioned)
    (hd : scope.standsFor? n = some d) :
    ∃ left, steps = left + 1 ∧ scope.Trail (n :: passed) left d := by
  -- an alias that was passed before would lead back to itself
  have hnew : n ∉ passed := fun hp => h.acyclic ⟨n, hn, n, .refl, h.leads n hp n hn⟩
  have hnodup : (n :: passed).Nodup := List.nodup_cons.mpr ⟨hnew, h.nodup⟩
  have haliases : ∀ m ∈ n :: passed, ∃ d, scope.standsFor? m = some d :=
    List.forall_mem_cons.mpr ⟨⟨d, hd⟩, h.aliases⟩
  have hlength := length_le_of_aliases hnodup haliases
  have hroom := h.room
  rw [List.length_cons] at hlength
  refine ⟨steps - 1, by omega, hnodup, haliases, ?_, ?_, ?_⟩
  · rw [List.length_cons]
    omega
  · intro k hk m hm
    have hstep : scope.Leads n m := ⟨d, hd, hm⟩
    rcases List.mem_cons.mp hk with rfl | hk
    · exact .single hstep
    · exact (h.leads k hk n hn).tail hstep
  · rintro ⟨k, hk, m, hkm, hcycle⟩
    exact h.acyclic ⟨n, hn, m, .head ⟨d, hd, hk⟩ hkm, hcycle⟩

/-- By induction on the number of aliases that may still be followed, and then on the expression. -/
theorem Trail.exists_expands (h : scope.Trail passed steps e) : ∃ e', scope.Expands e e' := by
  induction steps using Nat.strongRecOn generalizing passed e with
  | ind steps ih =>
    have hreference : ∀ {e n}, e.reference? = some n → scope.Trail passed steps e →
        ∃ e', scope.Expands e e' := by
      intro e n hn h
      cases hs : scope.standsFor? n with
      | none => exact ⟨e, .kept hn hs⟩
      | some d =>
        obtain ⟨left, rfl, htrail⟩ := h.follow (by simp [Expr.mentioned_of_reference? hn]) hs
        obtain ⟨d', hd⟩ := ih left (Nat.lt_succ_self left) htrail
        exact ⟨d', .replaced hn hs hd⟩
    induction e with
    | number raw => exact ⟨_, .number raw⟩
    | text content => exact ⟨_, .text content⟩
    | column name => exact hreference rfl h
    | qualified table name => exact hreference rfl h
    | aggregate function argument iha =>
      obtain ⟨argument', ha⟩ := iha (h.part fun m hm => hm)
      exact ⟨_, .aggregate function ha⟩
    | binary op l r ihl ihr =>
      obtain ⟨l', hl⟩ := ihl (h.part fun m hm => List.mem_append_left _ hm)
      obtain ⟨r', hr⟩ := ihr (h.part fun m hm => List.mem_append_right _ hm)
      exact ⟨_, .binary op hl hr⟩

/-- **Along a trail, an expression has the value of the expanded one.** -/
theorem evalUsing_expands (hstar : scope.StarAlone) (he : scope.Expands e e')
    (h : scope.Trail passed steps e) (row : Row) :
    e.evalUsing (scope.resolve steps) scope.group row =
      e'.evalUsing (scope.withoutAliases.resolve 0) scope.group row := by
  induction he generalizing passed steps row with
  | number raw => rfl
  | text content => rfl
  | kept hn hs =>
    rw [Expr.evalUsing_of_reference? hn, Expr.evalUsing_of_reference? hn, resolve_of_kept hs]
  | replaced hn hs _ ih =>
    obtain ⟨left, rfl, htrail⟩ := h.follow (by simp [Expr.mentioned_of_reference? hn]) hs
    rw [Expr.evalUsing_of_reference? hn, resolve_succ_of_alias hs, ih htrail]
  | aggregate function ha ih =>
    have hvalues := funext (ih (h.part fun m hm => hm))
    cases hgroup : scope.group with
    | none => rfl
    | some rows =>
      rw [hgroup] at hvalues
      rw [Expr.evalUsing, Expr.evalUsing, ha.countsRows_eq hstar, hvalues]
  | binary op _ _ ihl ihr =>
    rw [Expr.evalUsing, Expr.evalUsing, ihl (h.part fun m hm => List.mem_append_left _ hm),
      ihr (h.part fun m hm => List.mem_append_right _ hm)]

end Trails

end Scope

/-! ### Aliases that refer to themselves -/

/-- Does the calculation not fail for an alias that refers to itself? -/
def NeverCircular {α : Type} (x : Except EvalError α) : Prop :=
  ∀ n, x ≠ .error (.circularAlias n)

section NeverCircular

variable {α β : Type}

theorem NeverCircular.bind {x : Except EvalError α} {f : α → Except EvalError β}
    (hx : NeverCircular x) (hf : ∀ a, NeverCircular (f a)) : NeverCircular (x >>= f) := by
  intro n
  cases x with
  | ok a => exact hf a n
  | error cause =>
    intro h
    cases h
    exact hx n rfl

theorem neverCircular_mapM {f : α → Except EvalError β} (hf : ∀ a, NeverCircular (f a))
    (l : List α) : NeverCircular (l.mapM f) := by
  intro n h
  obtain ⟨before, a, after, -, -, ha⟩ := Trace.mapM_eq_error_iff.mp h
  exact hf a n ha

theorem neverCircular_apply (function : String) (values : List Value) :
    NeverCircular (Aggregate.apply function values) := by
  intro n
  unfold Aggregate.apply
  split <;> simp

/-- An expression does not find such an alias unless a name in it does. -/
theorem Expr.neverCircular_evalUsing {names : Names} (group : Option (List Row)) {e : Expr}
    (h : ∀ n ∈ e.mentioned, ∀ row, NeverCircular (names n row)) (row : Row) :
    NeverCircular (e.evalUsing names group row) := by
  induction e generalizing row with
  | number raw =>
    intro n
    rw [evalUsing]
    cases Decimal.readDouble? raw <;> simp
  | text content => simp [NeverCircular, evalUsing]
  | column name => exact h name (by simp [Expr.mentioned]) row
  | qualified table name => exact h _ (by simp [Expr.mentioned]) row
  | aggregate function argument ih =>
    cases group with
    | none => simp [NeverCircular, evalUsing]
    | some rows =>
      rw [evalUsing]
      split
      · simp [NeverCircular]
      · exact (neverCircular_mapM (ih h) rows).bind fun values => neverCircular_apply _ values
  | binary op l r ihl ihr =>
    have hl := ihl fun n hn => h n (List.mem_append_left _ hn)
    have hr := ihr fun n hn => h n (List.mem_append_right _ hn)
    refine (hl row).bind fun a => (hr row).bind fun b => ?_
    simp [NeverCircular, pure, Except.pure]

end NeverCircular

namespace Scope

variable {scope : Scope} {passed : List String} {steps : Nat} {n : String} {d e e' : Expr}

theorem neverCircular_cell (name : String) (row : Row) (i : Nat) :
    NeverCircular (cell name row i) := by
  intro n
  unfold cell
  cases row[i]? <;> simp

theorem neverCircular_resolve_of_kept (h : scope.standsFor? n = none) (row : Row) :
    NeverCircular (scope.resolve steps n row) := by
  rcases scope.lookup_cases n with ⟨i, hc⟩ | ⟨hc, hd⟩ | ⟨d, hs⟩
  · rw [resolve_of_columnIndex? hc]
    exact neverCircular_cell n row i
  · rw [resolve_of_unknown hc hd]
    simp [NeverCircular]
  · rw [h] at hs
    cases hs

/-- **Along a trail, no alias refers to itself.** -/
theorem Trail.neverCircular (h : scope.Trail passed steps e) (row : Row) :
    NeverCircular (e.evalUsing (scope.resolve steps) scope.group row) := by
  induction steps using Nat.strongRecOn generalizing passed e row with
  | ind steps ih =>
    refine Expr.neverCircular_evalUsing scope.group (fun n hn row => ?_) row
    cases hs : scope.standsFor? n with
    | none => exact neverCircular_resolve_of_kept hs row
    | some d =>
      obtain ⟨left, rfl, htrail⟩ := h.follow hn hs
      rw [resolve_succ_of_alias hs]
      exact ih left (Nat.lt_succ_self left) htrail row

/-- A name in front of a cycle is an alias, and the cycle is behind it. -/
theorem ReachesCycle.follow (h : scope.ReachesCycle e) (hn : e.reference? = some n) :
    ∃ d, scope.standsFor? n = some d ∧ scope.ReachesCycle d := by
  obtain ⟨k, hk, m, hkm, hcycle⟩ := h
  obtain rfl : k = n := by simpa [Expr.mentioned_of_reference? hn] using hk
  rcases hkm.cases_head with rfl | ⟨k', ⟨d, hd, hk'⟩, hkm⟩
  · obtain ⟨k', ⟨d, hd, hk'⟩, hback⟩ := TransGen.head'_iff.mp hcycle
    exact ⟨d, hd, k', hk', k, hback, hcycle⟩
  · exact ⟨d, hd, k', hk', m, hkm, hcycle⟩

theorem standsFor?_star (hstar : scope.StarAlone) : scope.standsFor? "*" = none := by
  refine Option.eq_none_iff_forall_ne_some.mpr fun d hd => ?_
  obtain ⟨entry, hentry, hname, -⟩ := standsFor?_mem hd
  exact (hstar entry hentry).1 hname

/-- An expression in front of a cycle has no value unless a name in front of one has. -/
theorem ReachesCycle.evalUsing_ne_ok_of_names {names : Names} (hstar : scope.StarAlone)
    (hgroup : scope.group ≠ some [])
    (hnames : ∀ n d, scope.standsFor? n = some d → scope.ReachesCycle d →
      ∀ row v, names n row ≠ .ok v)
    (h : scope.ReachesCycle e) (row : Row) (v : Value) :
    e.evalUsing names scope.group row ≠ .ok v := by
  induction e generalizing row v with
  | number raw | text content =>
    obtain ⟨n, hn, -⟩ := h
    cases hn
  | column name =>
    obtain ⟨d, hd, hcycle⟩ := h.follow rfl
    exact hnames name d hd hcycle row v
  | qualified table name =>
    obtain ⟨d, hd, hcycle⟩ := h.follow rfl
    exact hnames _ d hd hcycle row v
  | aggregate function argument ih =>
    intro hv
    cases hrows : scope.group with
    | none =>
      rw [hrows] at hv
      cases hv
    | some rows =>
      rw [hrows] at hv hgroup ih
      rw [Expr.evalUsing] at hv
      split at hv
      · -- a star that is counted stands for nothing
        next hcounts =>
        simp only [Aggregate.countsRows, Bool.and_eq_true, beq_iff_eq] at hcounts
        obtain ⟨-, rfl⟩ := hcounts
        obtain ⟨d, hd, -⟩ := ReachesCycle.follow (e := .column "*") h rfl
        rw [standsFor?_star hstar] at hd
        cases hd
      · obtain ⟨values, hvalues, -⟩ := except_bind_eq_ok.mp hv
        have hne : rows ≠ [] := fun hnil => hgroup (congrArg some hnil)
        obtain ⟨r, rest, rfl⟩ := List.exists_cons_of_ne_nil hne
        obtain ⟨w, hw⟩ := Trace.exists_mapM_eq_ok_iff.mp ⟨values, hvalues⟩ r List.mem_cons_self
        exact ih h r w hw
  | binary op l r ihl ihr =>
    intro hv
    obtain ⟨a, ha, hv⟩ := except_bind_eq_ok.mp hv
    obtain ⟨b, hb, -⟩ := except_bind_eq_ok.mp hv
    obtain ⟨n, hn, hcycle⟩ := h
    rcases List.mem_append.mp hn with hn | hn
    · exact ihl ⟨n, hn, hcycle⟩ row a ha
    · exact ihr ⟨n, hn, hcycle⟩ row b hb

/-- Whatever number of aliases may be followed, a cycle does not come to an end. -/
theorem ReachesCycle.evalUsing_ne_ok (hstar : scope.StarAlone) (hgroup : scope.group ≠ some [])
    (h : scope.ReachesCycle e) (steps : Nat) (row : Row) (v : Value) :
    e.evalUsing (scope.resolve steps) scope.group row ≠ .ok v := by
  induction steps generalizing e row v with
  | zero =>
    refine h.evalUsing_ne_ok_of_names hstar hgroup (fun n d hd _ row v => ?_) row v
    rw [resolve_zero_of_alias hd]
    simp
  | succ steps ih =>
    refine h.evalUsing_ne_ok_of_names hstar hgroup (fun n d hd hcycle row v => ?_) row v
    rw [resolve_succ_of_alias hd]
    exact ih hcycle row v

/-! ### Evaluation by rules -/

/-- The rules of evaluation: after so many aliases, the expression has that value on the row, or
fails for that cause. -/
inductive Yields (scope : Scope) : Nat → Expr → Row → Except EvalError Value → Prop where
  | number {depth : Nat} {raw : String} {row : Row} {x : Float}
    (h : Decimal.readDouble? raw = some x) : Yields scope depth (.number raw) row (.ok (.real x))
  | invalidNumber {depth : Nat} {raw : String} {row : Row} (h : Decimal.readDouble? raw = none) :
    Yields scope depth (.number raw) row (.error (.invalidNumber raw))
  | text {depth : Nat} {s : String} {row : Row} : Yields scope depth (.text s) row (.ok (.text s))
  | cell {depth i : Nat} {e : Expr} {n : String} {row : Row} (hn : e.reference? = some n)
    (h : columnIndex? scope.columns n = some i) : Yields scope depth e row (cell n row i)
  | unknown {depth : Nat} {e : Expr} {n : String} {row : Row} (hn : e.reference? = some n)
    (hc : columnIndex? scope.columns n = none) (hd : scope.definition? n = none) :
    Yields scope depth e row (.error (.unknownColumn n))
  | followed {depth : Nat} {e d : Expr} {n : String} {row : Row} {r : Except EvalError Value}
    (hn : e.reference? = some n) (hs : scope.standsFor? n = some d)
    (h : depth < scope.aliases.length) (hr : Yields scope (depth + 1) d row r) :
    Yields scope depth e row r
  | circular {depth : Nat} {e d : Expr} {n : String} {row : Row} (hn : e.reference? = some n)
    (hs : scope.standsFor? n = some d) (h : scope.aliases.length ≤ depth) :
    Yields scope depth e row (.error (.circularAlias n))
  | ungrouped {depth : Nat} {function : String} {argument : Expr} {row : Row}
    (h : scope.group = none) :
    Yields scope depth (.aggregate function argument) row (.error .ungroupedAggregate)
  | count {depth : Nat} {function : String} {argument : Expr} {row : Row} {rows : List Row}
    (h : scope.group = some rows) (hc : Aggregate.countsRows function.toLower argument = true) :
    Yields scope depth (.aggregate function argument) row
      (.ok (.integer (Int64.ofNat rows.length)))
  | aggregate {depth : Nat} {function : String} {argument : Expr} {row : Row} {rows : List Row}
    {values : Row → Except EvalError Value} (h : scope.group = some rows)
    (hc : Aggregate.countsRows function.toLower argument = false)
    (hv : ∀ r ∈ rows, Yields scope depth argument r (values r)) :
    Yields scope depth (.aggregate function argument) row
      (rows.mapM values >>= Aggregate.apply function.toLower)
  | binary {depth : Nat} {op : BinOp} {l r : Expr} {row : Row} {x y : Except EvalError Value}
    (hl : Yields scope depth l row x) (hr : Yields scope depth r row y) :
    Yields scope depth (.binary op l r) row (do return op.apply (← x) (← y))

/-- The rules give a value. -/
theorem yields_evalUsing (depth : Nat) (e : Expr) (row : Row) : scope.Yields depth e row
    (e.evalUsing (scope.resolve (scope.aliases.length - depth)) scope.group row) := by
  induction hsteps : scope.aliases.length - depth using Nat.strongRecOn
    generalizing depth e row with
  | ind steps ih =>
    have hreference : ∀ {e : Expr} {n : String} {row : Row}, e.reference? = some n →
        scope.Yields depth e row (scope.resolve steps n row) := by
      intro e n row hn
      rcases scope.lookup_cases n with ⟨i, hc⟩ | ⟨hc, hd⟩ | ⟨d, hs⟩
      · rw [resolve_of_columnIndex? hc]
        exact .cell hn hc
      · rw [resolve_of_unknown hc hd]
        exact .unknown hn hc hd
      · cases steps with
        | zero =>
          rw [resolve_zero_of_alias hs]
          exact .circular hn hs (by omega)
        | succ left =>
          rw [resolve_succ_of_alias hs]
          exact .followed hn hs (by omega) (ih left (Nat.lt_succ_self left) _ _ _ (by omega))
    induction e generalizing row with
    | number raw =>
      rw [Expr.evalUsing]
      cases h : Decimal.readDouble? raw with
      | some x => exact .number h
      | none => exact .invalidNumber h
    | text content => exact .text
    | column name => exact hreference rfl
    | qualified table name => exact hreference rfl
    | aggregate function argument iha =>
      cases hgroup : scope.group with
      | none => exact .ungrouped hgroup
      | some rows =>
        rw [hgroup] at iha
        rw [Expr.evalUsing]
        cases hc : Aggregate.countsRows function.toLower argument with
        | true => exact .count hgroup hc
        | false => exact .aggregate hgroup hc fun r _ => iha r
    | binary op l r ihl ihr => exact .binary (ihl row) (ihr row)

/-- The rules give no other value. -/
theorem Yields.eq_evalUsing {depth : Nat} {row : Row} {r : Except EvalError Value}
    (h : scope.Yields depth e row r) :
    r = e.evalUsing (scope.resolve (scope.aliases.length - depth)) scope.group row := by
  induction h with
  | number h | invalidNumber h => rw [Expr.evalUsing, h]
  | text => rfl
  | cell hn h => rw [Expr.evalUsing_of_reference? hn, resolve_of_columnIndex? h]
  | unknown hn hc hd => rw [Expr.evalUsing_of_reference? hn, resolve_of_unknown hc hd]
  | @followed depth e d n row r hn hs h _ ih =>
    have hsteps : scope.aliases.length - depth = (scope.aliases.length - (depth + 1)) + 1 := by
      omega
    rw [Expr.evalUsing_of_reference? hn, hsteps, resolve_succ_of_alias hs, ih]
  | circular hn hs h =>
    rw [Expr.evalUsing_of_reference? hn, Nat.sub_eq_zero_of_le h, resolve_zero_of_alias hs]
  | ungrouped h =>
    rw [h]
    rfl
  | count h hc =>
    rw [h, Expr.evalUsing, if_pos hc]
  | aggregate h hc _ ih => rw [h, Expr.evalUsing, if_neg (by simp [hc]), mapM_congr ih, h]
  | binary _ _ ihl ihr => rw [Expr.evalUsing, ihl, ihr]

theorem yields_iff {row : Row} {r : Except EvalError Value} :
    scope.Yields 0 e row r ↔ r = scope.evaluate e row := by
  constructor
  · exact fun h => h.eq_evalUsing
  · rintro rfl
    exact yields_evalUsing 0 e row

/-! ### Evaluation with aliases -/

/-- **Aliases are macros.**  Unless it leads to an alias that leads back to itself, an expression
has the value of the one expression in which every alias is replaced, evaluated without aliases.
Only where it does can an alias be found that refers to itself, and there is no value then, at least
if the group is not empty.  The rules always come to a result, which is the value. -/
theorem evaluate_expands (scope : Scope) (e : Expr) :
    (scope.StarAlone → ¬ scope.ReachesCycle e →
      ∃ e', (∀ x, scope.Expands e x ↔ x = e') ∧
        ∀ row, scope.evaluate e row = scope.withoutAliases.evaluate e' row) ∧
    (∀ row n, scope.evaluate e row = .error (.circularAlias n) → scope.ReachesCycle e) ∧
    (scope.StarAlone → scope.ReachesCycle e → scope.group ≠ some [] →
      ∀ row, ∃ cause, scope.evaluate e row = .error cause) ∧
    ∀ row r, scope.Yields 0 e row r ↔ r = scope.evaluate e row := by
  refine ⟨fun hstar hacyclic => ?_, fun row n hn => ?_, fun hstar hcycle hgroup row => ?_,
    fun row r => yields_iff⟩
  · have htrail := trail_of_acyclic hacyclic
    obtain ⟨e', he⟩ := htrail.exists_expands
    refine ⟨e', fun x => ⟨he.unique, ?_⟩, evalUsing_expands hstar he htrail⟩
    rintro rfl
    exact he
  · by_contra hacyclic
    exact (trail_of_acyclic hacyclic).neverCircular row n hn
  · cases hv : scope.evaluate e row with
    | ok v => exact absurd hv (hcycle.evalUsing_ne_ok hstar hgroup _ row v)
    | error cause => exact ⟨cause, rfl⟩

/-- Aliases that lead downwards only do not lead to a cycle. -/
theorem not_reachesCycle_of_rank (rank : String → Nat)
    (h : ∀ entry ∈ scope.aliases, ∀ n ∈ entry.name?, ∀ m ∈ entry.item.mentioned,
      rank m < rank n) :
    ¬ scope.ReachesCycle e := by
  have hstep : ∀ {n m}, scope.Leads n m → rank m < rank n := by
    rintro n m ⟨d, hd, hm⟩
    obtain ⟨entry, hentry, hname, rfl⟩ := standsFor?_mem hd
    exact h entry hentry n hname m hm
  have hdown : ∀ {n m}, TransGen scope.Leads n m → rank m < rank n := by
    intro n m hnm
    induction hnm with
    | single hm => exact hstep hm
    | tail _ hm ih => exact Nat.lt_trans (hstep hm) ih
  rintro ⟨-, -, m, -, hcycle⟩
  exact Nat.lt_irrefl _ (hdown hcycle)

/-- A select list in which each alias leads to the next one, and the last one to a column. -/
def chained : Scope where
  columns := ["t.x"]
  aliases := [⟨.column "b", some "a"⟩, ⟨.qualified "c" "d", some "b"⟩,
    ⟨.aggregate "MAX" (.column "x"), some "c.d"⟩, ⟨.column "*", none⟩]
  group := some [[.text "p"], [.text "q"]]

/-- A select list with an alias for an expression that mentions it. -/
def looped : Scope where
  columns := ["t.x"]
  aliases := [⟨.binary .add (.column "x") (.column "loop"), some "loop"⟩]

theorem evaluate_expands_examples :
    (chained.StarAlone ∧ ¬ chained.ReachesCycle (.binary .add (.column "x") (.column "a")) ∧
      ∀ row, chained.evaluate (.binary .add (.column "x") (.column "a")) row =
        chained.withoutAliases.evaluate
          (.binary .add (.column "x") (.aggregate "MAX" (.column "x"))) row) ∧
    (looped.evaluate (.column "loop") [.text "p"] = .error (.circularAlias "loop") ∧
      looped.ReachesCycle (.column "loop")) ∧
    looped.StarAlone ∧ looped.group ≠ some [] ∧
      ∃ cause, looped.evaluate (.column "loop") [.text "p"] = .error cause := by
  have hstar : chained.StarAlone := by simp [StarAlone, chained]
  have hacyclic : ¬ chained.ReachesCycle (.binary .add (.column "x") (.column "a")) :=
    not_reachesCycle_of_rank (fun n => ["x", "c.d", "b", "a"].idxOf n) (by decide)
  have hexpands : chained.Expands (.binary .add (.column "x") (.column "a"))
      (.binary .add (.column "x") (.aggregate "MAX" (.column "x"))) :=
    .binary _ (.kept rfl rfl) (.replaced rfl rfl (.replaced rfl rfl (.replaced rfl rfl
      (.aggregate _ (.kept rfl rfl)))))
  have hloop : looped.evaluate (.column "loop") [.text "p"] = .error (.circularAlias "loop") := by
    rfl
  obtain ⟨hexpanded, -⟩ := evaluate_expands chained (.binary .add (.column "x") (.column "a"))
  obtain ⟨e', he', hvalue⟩ := hexpanded hstar hacyclic
  obtain rfl := (he' _).mp hexpands
  obtain ⟨-, hcircular, hfails, -⟩ := evaluate_expands looped (.column "loop")
  have hcycle := hcircular _ _ hloop
  have hstar' : looped.StarAlone := by simp [StarAlone, looped]
  have hgroup : looped.group ≠ some [] := by simp [looped]
  exact ⟨⟨hstar, hacyclic, hvalue⟩, ⟨hloop, hcycle⟩, hstar', hgroup,
    hfails hstar' hcycle hgroup _⟩

end Scope

end QueryTrace

/-
What an expression reads of a row.

An expression has a value on a row, but it looks at few of the cells: those that its names lead to,
and the names in an aggregate are looked up on the rows of the group instead.

* `Scope.Reads` — the cells of the row that an expression may look at, directly or through aliases;
* `Expr.evalUsing_congr` and `Scope.evalUsing_resolve_congr` — what a step of evaluation reads, and
  what is read through any number of aliases;
* `Trace.judgeGroupBy` — the judgement of a group with any choice of the row that speaks for it;
* **`evaluate_reads`** — rows that agree in those cells are as good as each other, so the choice
  does not matter where the rows of a group agree in them.

Design notes: a row may be too short for a cell that is read.  Rows agree in such a cell only if
both are, so nothing has to be said about their lengths.
-/
import QueryTrace.Proofs.Aliases
import QueryTrace.Trace.Basic

namespace QueryTrace

/-- The names in an expression that are in no aggregate. -/
def Expr.outside : Expr → List String
  | column name => [name]
  | qualified table name => [table ++ "." ++ name]
  | binary _ l r => l.outside ++ r.outside
  | _ => []

/-- A name in an aggregate is looked up on other rows. -/
theorem Expr.evalUsing_congr {names : Names} (group : Option (List Row)) {row row' : Row} {e : Expr}
    (h : ∀ n ∈ e.outside, names n row = names n row') :
    e.evalUsing names group row = e.evalUsing names group row' := by
  induction e with
  | number raw => rfl
  | text content => rfl
  | column name => exact h name (by simp [outside])
  | qualified table name => exact h _ (by simp [outside])
  | aggregate function argument => cases group <;> rfl
  | binary op l r ihl ihr =>
    rw [evalUsing, evalUsing, ihl fun n hn => h n (List.mem_append_left _ hn),
      ihr fun n hn => h n (List.mem_append_right _ hn)]

namespace Scope

/-- Does a name outside of aggregates lead to the cell, at once or through what it stands for? -/
inductive Reads (scope : Scope) : Expr → Nat → Prop where
  | cell {e : Expr} {n : String} {i : Nat} (hn : n ∈ e.outside)
    (hi : columnIndex? scope.columns n = some i) : Reads scope e i
  | through {e d : Expr} {n : String} {i : Nat} (hn : n ∈ e.outside)
    (hd : scope.standsFor? n = some d) (h : Reads scope d i) : Reads scope e i

variable {scope : Scope} {e : Expr} {row row' : Row}

theorem not_reads_of_outside_eq_nil (h : e.outside = []) (i : Nat) : ¬ scope.Reads e i := by
  rintro (⟨hn, -⟩ | ⟨hn, -, -⟩) <;> simp [h] at hn

theorem cell_congr {i : Nat} (h : row[i]? = row'[i]?) (n : String) :
    cell n row i = cell n row' i := by
  rw [cell, cell, h]

/-- By induction on the number of aliases that may still be followed. -/
theorem evalUsing_resolve_congr (steps : Nat) (h : ∀ i, scope.Reads e i → row[i]? = row'[i]?) :
    e.evalUsing (scope.resolve steps) scope.group row =
      e.evalUsing (scope.resolve steps) scope.group row' := by
  induction steps using Nat.strongRecOn generalizing e with
  | ind steps ih =>
    refine Expr.evalUsing_congr scope.group fun n hn => ?_
    rcases scope.lookup_cases n with ⟨i, hc⟩ | ⟨hc, hd⟩ | ⟨d, hs⟩
    · rw [resolve_of_columnIndex? hc, resolve_of_columnIndex? hc]
      exact cell_congr (h i (.cell hn hc)) n
    · rw [resolve_of_unknown hc hd, resolve_of_unknown hc hd]
    · cases steps with
      | zero => rw [resolve_zero_of_alias hs, resolve_zero_of_alias hs]
      | succ left =>
        rw [resolve_succ_of_alias hs, resolve_succ_of_alias hs]
        exact ih left (Nat.lt_succ_self left) fun i hi => h i (.through hn hs hi)

end Scope

namespace Trace

/-- What a condition on a group is evaluated in. -/
def groupScope (aliases : List (Aliased Expr)) (t : Table) : Scope :=
  { columns := t.columns, aliases, group := some t.rows }

/-- Is a condition true of a group, if it is this row that speaks for the group? -/
def judgeGroupBy (speaker : Row) (aliases : List (Aliased Expr)) (condition : Expr) (t : Table) :
    Except EvalError Bool := do
  let v ← (groupScope aliases t).evaluate condition speaker
  return v.truthy

theorem judgeGroup_eq_by (aliases : List (Aliased Expr)) (condition : Expr) (t : Table) :
    judgeGroup aliases condition t = judgeGroupBy (representative t) aliases condition t := rfl

theorem representative_mem {t : Table} (h : t.rows ≠ []) : representative t ∈ t.rows := by
  rw [representative, List.getLast?_eq_some_getLast h]
  exact List.getLast_mem h

end Trace

/-- **Evaluation reads the cells that the names outside of aggregates lead to**, and no others.  So
it does not matter which row speaks for a group if the rows of the group agree in those cells, and
any row can speak for it if there are none. -/
theorem evaluate_reads (aliases : List (Aliased Expr)) (e : Expr) :
    (∀ columns group row row',
      (∀ i, Scope.Reads { columns, aliases, group } e i → row[i]? = row'[i]?) →
        Scope.evaluate { columns, aliases, group } e row =
          Scope.evaluate { columns, aliases, group } e row') ∧
    ∀ t : Table,
      ((∀ i, (Trace.groupScope aliases t).Reads e i →
          ∀ r ∈ t.rows, ∀ r' ∈ t.rows, r[i]? = r'[i]?) →
        ∀ row ∈ t.rows, Trace.judgeGroup aliases e t = Trace.judgeGroupBy row aliases e t) ∧
      ((∀ i, ¬ (Trace.groupScope aliases t).Reads e i) →
        ∀ row, Trace.judgeGroup aliases e t = Trace.judgeGroupBy row aliases e t) := by
  have hreads : ∀ (scope : Scope) (row row' : Row),
      (∀ i, scope.Reads e i → row[i]? = row'[i]?) → scope.evaluate e row = scope.evaluate e row' :=
    fun scope _ _ h => Scope.evalUsing_resolve_congr scope.aliases.length h
  refine ⟨fun columns group => hreads _, fun t => ⟨fun hsame row hrow => ?_, fun hnone row => ?_⟩⟩
  · have hlast := Trace.representative_mem (List.ne_nil_of_mem hrow)
    have hagree := hreads (Trace.groupScope aliases t) (Trace.representative t) row
      fun i hi => hsame i hi _ hlast _ hrow
    rw [Trace.judgeGroup_eq_by, Trace.judgeGroupBy, hagree, Trace.judgeGroupBy]
  · have hagree := hreads (Trace.groupScope aliases t) (Trace.representative t) row
      fun i hi => absurd hi (hnone i)
    rw [Trace.judgeGroup_eq_by, Trace.judgeGroupBy, hagree, Trace.judgeGroupBy]

/-- Two rows that differ in their second cells only. -/
def sameKeys : Table :=
  ⟨["t.k", "t.v"], [[.text "a", .text "x"], [.text "a", .text "y"]]⟩

/-- A select list with an alias for the first column. -/
def keyAlias : List (Aliased Expr) :=
  [⟨.column "k", some "key"⟩]

/-- The alias leads to the first cell, with a group or without one. -/
theorem eq_zero_of_reads_key {group : Option (List Row)} {i : Nat}
    (h : Scope.Reads ⟨sameKeys.columns, keyAlias, group⟩ (.column "key") i) : i = 0 := by
  have hkey : columnIndex? sameKeys.columns "key" = none := by decide
  have hk : columnIndex? sameKeys.columns "k" = some 0 := by decide
  rcases h with ⟨hn, hi⟩ | ⟨hn, hd, h⟩
  · cases List.mem_singleton.mp hn
    rw [hkey] at hi
    cases hi
  · cases List.mem_singleton.mp hn
    cases hd
    rcases h with ⟨hn, hi⟩ | ⟨hn, hd, -⟩
    · cases List.mem_singleton.mp hn
      rw [hk] at hi
      cases hi
      rfl
    · cases List.mem_singleton.mp hn
      cases hd

theorem evaluate_reads_sameKeys :
    let lastKey : Expr := .binary .eq (.column "key") (.aggregate "max" (.column "v"))
    let rowCount : Expr := .aggregate "count" (.column "*")
    ((∀ i, Scope.Reads ⟨sameKeys.columns, keyAlias, none⟩ (.column "key") i →
        ([.text "a", .text "x"] : Row)[i]? = ([.text "a", .null, .null] : Row)[i]?) ∧
      Scope.evaluate ⟨sameKeys.columns, keyAlias, none⟩ (.column "key") [.text "a", .text "x"] =
        Scope.evaluate ⟨sameKeys.columns, keyAlias, none⟩ (.column "key")
          [.text "a", .null, .null]) ∧
    ((∀ i, (Trace.groupScope keyAlias sameKeys).Reads lastKey i →
        ∀ r ∈ sameKeys.rows, ∀ r' ∈ sameKeys.rows, r[i]? = r'[i]?) ∧
      Trace.judgeGroup keyAlias lastKey sameKeys =
        Trace.judgeGroupBy [.text "a", .text "x"] keyAlias lastKey sameKeys) ∧
    (∀ i, ¬ (Trace.groupScope keyAlias sameKeys).Reads rowCount i) ∧
      Trace.judgeGroup keyAlias rowCount sameKeys =
        Trace.judgeGroupBy [] keyAlias rowCount sameKeys := by
  intro lastKey rowCount
  have hrows : ∀ i, Scope.Reads ⟨sameKeys.columns, keyAlias, none⟩ (.column "key") i →
      ([.text "a", .text "x"] : Row)[i]? = ([.text "a", .null, .null] : Row)[i]? := by
    intro i hi
    cases eq_zero_of_reads_key hi
    rfl
  have hgroup : ∀ i, (Trace.groupScope keyAlias sameKeys).Reads lastKey i →
      ∀ r ∈ sameKeys.rows, ∀ r' ∈ sameKeys.rows, r[i]? = r'[i]? := by
    intro i hi
    -- the aggregate has no name outside, so what the comparison reads is what its left side reads
    have hleft : (Trace.groupScope keyAlias sameKeys).Reads (.column "key") i := by
      rcases hi with ⟨hn, hi⟩ | ⟨hn, hd, h⟩
      · exact .cell hn hi
      · exact .through hn hd h
    cases eq_zero_of_reads_key hleft
    simp [sameKeys]
  have hnone : ∀ i, ¬ (Trace.groupScope keyAlias sameKeys).Reads rowCount i :=
    Scope.not_reads_of_outside_eq_nil rfl
  obtain ⟨hvalue, -⟩ := evaluate_reads keyAlias (.column "key")
  obtain ⟨-, hlast⟩ := evaluate_reads keyAlias lastKey
  obtain ⟨-, hcount⟩ := evaluate_reads keyAlias rowCount
  exact ⟨⟨hrows, hvalue _ _ _ _ hrows⟩,
    ⟨hgroup, (hlast sameKeys).1 hgroup _ (by simp [sameKeys])⟩, hnone, (hcount sameKeys).2 hnone _⟩

end QueryTrace

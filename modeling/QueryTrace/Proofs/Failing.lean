/-
When an expression has no value.

An expression fails for what is written in it and never for what stands in a cell.  `Outline` is a
scope without its rows, and the failure of an expression is computed from it alone.

* `Outline.failure?` — the failure of an expression, without a row;
* **`cause?_evaluate`** — evaluation on a row of that length fails with it, or not at all;
* **`evaluate_fails_alike`** — two rows of one length are refused alike, and a filter fails on the
  first row of a rectangular table or on none.

Design notes: operands are all evaluated, whatever their values, so the failure of an operation is
that of the first operand that fails.  The rows of a group are all of one length, so the first of
them decides for all, and only a group without rows lets the argument of an aggregate go unnoticed.
-/
import QueryTrace.Proofs.Outcome
import QueryTrace.Trace.Basic

namespace QueryTrace

/-! ### The cause of a failure -/

section Cause

variable {ε α β : Type}

/-- The cause for which a calculation fails, if it fails. -/
def cause? : Except ε α → Option ε
  | .ok _ => none
  | .error e => some e

theorem cause?_eq_none_iff {x : Except ε α} : cause? x = none ↔ ∃ a, x = .ok a := by
  cases x <;> simp [cause?]

theorem cause?_eq_some_iff {x : Except ε α} {e : ε} : cause? x = some e ↔ x = .error e := by
  cases x <;> simp [cause?]

/-- Without a cause both have a value, and with one it is the cause of both. -/
theorem cause?_eq_iff {x : Except ε α} {y : Except ε β} :
    cause? x = cause? y ↔
      (∃ a b, x = .ok a ∧ y = .ok b) ∨ ∃ e, x = .error e ∧ y = .error e := by
  cases x <;> cases y <;> simp [cause?, eq_comm]

/-- Of two calculations one behind the other, the first that fails gives the cause. -/
theorem cause?_bind {x : Except ε α} {f : α → Except ε β} {c : Option ε}
    (h : ∀ a, x = .ok a → cause? (f a) = c) : cause? (x >>= f) = (cause? x).or c := by
  cases x with
  | error e => rfl
  | ok a => exact h a rfl

/-- Calculations that all have one cause to fail have it one behind the other, unless there are
none. -/
theorem cause?_mapM {f : α → Except ε β} {l : List α} {c : Option ε}
    (h : ∀ a ∈ l, cause? (f a) = c) :
    cause? (l.mapM f) = if l.isEmpty then none else c := by
  induction l with
  | nil => rfl
  | cons a l ih =>
    have ih := ih fun b hb => h b (List.mem_cons_of_mem a hb)
    have hrest : ∀ b, f a = .ok b → cause? (l.mapM f >>= fun bs => pure (b :: bs)) = none := by
      intro b hb
      have hc : c = none := by
        rw [← h a List.mem_cons_self, hb]
        rfl
      rw [hc, ite_self] at ih
      rw [cause?_bind (c := none) fun _ _ => rfl, ih]
      rfl
    rw [List.mapM_cons, cause?_bind hrest, h a List.mem_cons_self, Option.or_none]
    rfl

end Cause

/-! ### Failures without rows -/

/-- The failure of an aggregate of the given name, whatever the values. -/
def Aggregate.failure? (function : String) : Option EvalError :=
  cause? (Aggregate.apply function [])

theorem Aggregate.cause?_apply (function : String) (values : List Value) :
    cause? (Aggregate.apply function values) = Aggregate.failure? function := by
  unfold Aggregate.failure? Aggregate.apply
  split <;> rfl

/-- The failure of an expression, given those of the names and whether the group has rows. -/
def Expr.failureUsing (names : String → Option EvalError) (group : Option Bool) :
    Expr → Option EvalError
  | .number raw =>
    if (Decimal.readDouble? raw).isSome then none else some (.invalidNumber raw)
  | .text _ => none
  | .column name => names name
  | .qualified table name => names (table ++ "." ++ name)
  | .aggregate function argument =>
    match group with
    | none => some .ungroupedAggregate
    | some hasRows =>
      if Aggregate.countsRows function.toLower argument then none
      else (if hasRows then argument.failureUsing names group else none).or
        (Aggregate.failure? function.toLower)
  | .binary _ l r => (l.failureUsing names group).or (r.failureUsing names group)

/-- A scope without its rows. -/
structure Outline where
  columns : List String
  aliases : List (Aliased Expr)
  /-- The length of a row. -/
  width : Nat
  /-- Has the group rows, if there is a group? -/
  group : Option Bool

namespace Outline

/-- The failure of a name when at most `steps` aliases may still be followed. -/
def nameFailure? (o : Outline) : Nat → String → Option EvalError
  | steps, name =>
    match columnIndex? o.columns name, o.aliases.find? (·.name? == some name), steps with
    | some i, _, _ => if i < o.width then none else some (.missingCell name)
    | none, none, _ => some (.unknownColumn name)
    | none, some _, 0 => some (.circularAlias name)
    | none, some entry, steps + 1 => entry.item.failureUsing (nameFailure? o steps) o.group

/-- The failure of an expression. -/
def failure? (o : Outline) (e : Expr) : Option EvalError :=
  e.failureUsing (o.nameFailure? o.aliases.length) o.group

end Outline

namespace Scope

/-- The scope without its rows, for rows of the given length. -/
def outline (scope : Scope) (width : Nat) : Outline where
  columns := scope.columns
  aliases := scope.aliases
  width := width
  group := scope.group.map fun rows => !rows.isEmpty

/-- Are the rows of the group, if there is one, of the given length? -/
def GroupWidth (width : Nat) (group : Option (List Row)) : Prop :=
  ∀ rows, group = some rows → ∀ row ∈ rows, row.length = width

theorem groupWidth_none (width : Nat) : GroupWidth width none := by
  simp [GroupWidth]

theorem groupWidth_some {width : Nat} {rows : List Row} :
    GroupWidth width (some rows) ↔ ∀ row ∈ rows, row.length = width := by
  simp [GroupWidth]

end Scope

open Scope

/-! ### Evaluation fails as computed -/

section Evaluation

variable {width : Nat} {row : Row} {group : Option (List Row)}

/-- If names fail as computed, so do the expressions over them. -/
theorem Expr.cause?_evalUsing {names : Names} {failures : String → Option EvalError}
    (hn : ∀ name row, row.length = width → cause? (names name row) = failures name)
    (hg : GroupWidth width group) (e : Expr) (hl : row.length = width) :
    cause? (e.evalUsing names group row) =
      e.failureUsing failures (group.map fun rows => !rows.isEmpty) := by
  induction e generalizing row with
  | number raw =>
    rw [evalUsing, failureUsing]
    cases Decimal.readDouble? raw <;> rfl
  | text content => rfl
  | column name => exact hn name row hl
  | qualified table name => exact hn _ row hl
  | aggregate function argument ih =>
    cases group with
    | none => rfl
    | some rows =>
      rw [evalUsing, Option.map_some, failureUsing]
      by_cases hc : Aggregate.countsRows function.toLower argument = true
      · rw [if_pos hc, if_pos hc]
        rfl
      · rw [if_neg hc, if_neg hc, cause?_bind fun values _ => Aggregate.cause?_apply _ values,
          cause?_mapM fun r hr => ih (groupWidth_some.mp hg r hr)]
        cases rows <;> rfl
  | binary op l r ihl ihr =>
    rw [evalUsing, failureUsing, ← ihl hl, ← ihr hl]
    refine cause?_bind fun a _ => ?_
    rw [cause?_bind (c := none) fun _ _ => rfl, Option.or_none]

theorem Scope.cause?_cell (name : String) (row : Row) (i : Nat) :
    cause? (cell name row i) = if i < row.length then none else some (.missingCell name) := by
  unfold cell
  by_cases hi : i < row.length
  · rw [List.getElem?_eq_getElem hi, if_pos hi]
    rfl
  · rw [List.getElem?_eq_none (Nat.le_of_not_lt hi), if_neg hi]
    rfl

/-- By induction on the number of aliases that may still be followed. -/
theorem Scope.cause?_resolve {scope : Scope} (hg : GroupWidth width scope.group) (steps : Nat)
    (name : String) (hl : row.length = width) :
    cause? (scope.resolve steps name row) = (scope.outline width).nameFailure? steps name := by
  induction steps generalizing name row with
  | zero =>
    unfold resolve Outline.nameFailure? definition? outline
    cases columnIndex? scope.columns name with
    | some i => exact hl ▸ cause?_cell name row i
    | none => cases scope.aliases.find? (·.name? == some name) <;> rfl
  | succ steps ih =>
    unfold resolve Outline.nameFailure? definition?
    unfold outline at ih ⊢
    cases columnIndex? scope.columns name with
    | some i => exact hl ▸ cause?_cell name row i
    | none =>
      cases scope.aliases.find? (·.name? == some name) with
      | none => rfl
      | some entry => exact entry.item.cause?_evalUsing (fun name row hl => ih name hl) hg hl

/-- **Evaluation fails as computed**, and only then. -/
theorem Scope.cause?_evaluate (scope : Scope) (hg : GroupWidth width scope.group) (e : Expr)
    (hl : row.length = width) :
    cause? (scope.evaluate e row) = (scope.outline width).failure? e :=
  e.cause?_evalUsing (fun name _ hl => cause?_resolve hg _ name hl) hg hl

end Evaluation

/-! ### Two rows, and the rows of a table -/

/-- Are both groups absent, both without rows, or both with rows, all of the given length? -/
def Scope.GroupsAlike (width : Nat) : Option (List Row) → Option (List Row) → Prop
  | none, none => True
  | some rows, some rows' => (rows = [] ↔ rows' = []) ∧ ∀ row ∈ rows ++ rows', row.length = width
  | _, _ => False

/-- Groups that are alike differ only in their cells and in the number of their rows. -/
theorem Scope.GroupsAlike.outline_eq {width : Nat} {group group' : Option (List Row)}
    (h : GroupsAlike width group group') (columns : List String) (aliases : List (Aliased Expr)) :
    outline ⟨columns, aliases, group'⟩ width = outline ⟨columns, aliases, group⟩ width ∧
      GroupWidth width group ∧ GroupWidth width group' := by
  cases group with
  | none =>
    cases group' with
    | none => exact ⟨rfl, groupWidth_none width, groupWidth_none width⟩
    | some rows' => exact h.elim
  | some rows =>
    cases group' with
    | none => exact h.elim
    | some rows' =>
      obtain ⟨hempty, hwidth⟩ := h
      rw [List.forall_mem_append] at hwidth
      refine ⟨?_, groupWidth_some.mpr hwidth.1, groupWidth_some.mpr hwidth.2⟩
      have hiff : rows'.isEmpty = rows.isEmpty := by
        rw [Bool.eq_iff_iff, List.isEmpty_iff, List.isEmpty_iff, hempty]
      simp only [outline, Option.map_some, hiff]

namespace Trace

variable {s : Setting} {aliases : List (Aliased Expr)} {condition : Expr} {t : Table}

/-- A filter that fails on the first row comes to no other. -/
theorem filterRows_of_first {row : Row} {rows : List Row} {cause : EvalError}
    (ht : t.rows = row :: rows)
    (he : Scope.evaluate { columns := t.columns, aliases } condition row = .error cause) :
    filterRows s aliases condition t = (do
      Run.keepPace s 0
      throw (.evaluation cause)) := by
  have hthrow : Run.ofExcept Failure.evaluation (.error cause : Except EvalError Value) =
      throw (.evaluation cause) := rfl
  unfold filterRows
  dsimp only
  rw [ht, List.zipIdx_cons, List.mapM_cons]
  dsimp only
  rw [he, hthrow, bind_assoc, bind_assoc]
  rfl

/-- A filter that has a value on every row fails for no other cause than the time. -/
theorem filterRows_failsOnly
    (h : ∀ row ∈ t.rows, ∃ v,
      Scope.evaluate { columns := t.columns, aliases } condition row = .ok v) :
    (filterRows s aliases condition t).FailsOnly fun e => ∀ cause, e ≠ .evaluation cause := by
  unfold filterRows
  refine Run.failsOnly_bind (Run.failsOnly_mapM fun r hr => ?_) fun _ => Run.failsOnly_pure _ _
  refine Run.failsOnly_bind (Run.failsOnly_keepPace (fun _ _ _ => by simp) _) fun _ => ?_
  refine Run.failsOnly_bind (Run.failsOnly_ofExcept fun e he => ?_) fun _ => Run.failsOnly_pure _ _
  obtain ⟨v, hv⟩ := h r.1 (List.fst_mem_of_mem_zipIdx hr)
  rw [hv] at he
  cases he

end Trace

/-- **Failures do not depend on cells.**  On two rows of one length, with groups that are alike, an
expression has a value on both or is refused for one cause.  A filter of a rectangular table
therefore fails at the first row, or at none. -/
theorem evaluate_fails_alike (aliases : List (Aliased Expr)) (e : Expr) :
    (∀ (columns : List String) (group group' : Option (List Row)) (row row' : Row),
      row.length = row'.length → GroupsAlike row.length group group' →
      (∃ v v', Scope.evaluate { columns, aliases, group } e row = .ok v ∧
        Scope.evaluate { columns, aliases, group := group' } e row' = .ok v') ∨
      ∃ cause, Scope.evaluate { columns, aliases, group } e row = .error cause ∧
        Scope.evaluate { columns, aliases, group := group' } e row' = .error cause) ∧
    ∀ (s : Setting) (t : Table), t.Rectangular →
      (∃ row rows cause, t.rows = row :: rows ∧
        Scope.evaluate { columns := t.columns, aliases } e row = .error cause ∧
        Trace.filterRows s aliases e t = (do
          Run.keepPace s 0
          throw (.evaluation cause))) ∨
      (∀ row ∈ t.rows, ∃ v, Scope.evaluate { columns := t.columns, aliases } e row = .ok v) ∧
        (Trace.filterRows s aliases e t).FailsOnly fun f => ∀ cause, f ≠ .evaluation cause := by
  constructor
  · intro columns group group' row row' hl hg
    obtain ⟨houtline, hw, hw'⟩ := hg.outline_eq columns aliases
    have hc := Scope.cause?_evaluate { columns, aliases, group } hw e rfl
    have hc' := Scope.cause?_evaluate { columns, aliases, group := group' } hw' e hl.symm
    exact cause?_eq_iff.mp (hc.trans (houtline ▸ hc'.symm))
  · intro s t ht
    have hsame : ∀ r ∈ t.rows, cause? (Scope.evaluate { columns := t.columns, aliases } e r) =
        (Scope.outline { columns := t.columns, aliases } t.columns.length).failure? e :=
      fun r hr => Scope.cause?_evaluate _ (Scope.groupWidth_none _) e (ht r hr)
    cases hf : (Scope.outline { columns := t.columns, aliases } t.columns.length).failure? e with
    | none =>
      have hok : ∀ r ∈ t.rows, ∃ v, Scope.evaluate { columns := t.columns, aliases } e r = .ok v :=
        fun r hr => cause?_eq_none_iff.mp ((hsame r hr).trans hf)
      exact .inr ⟨hok, Trace.filterRows_failsOnly hok⟩
    | some cause =>
      cases hrows : t.rows with
      | nil => exact .inr ⟨by simp, Trace.filterRows_failsOnly (by simp [hrows])⟩
      | cons row rows =>
        have hrow := (hsame row (hrows ▸ List.mem_cons_self)).trans hf
        have he := cause?_eq_some_iff.mp hrow
        exact .inl ⟨row, rows, cause, rfl, he, Trace.filterRows_of_first hrows he⟩

/-- A select list with an alias for an aggregate. -/
def greatest : List (Aliased Expr) :=
  [⟨.aggregate "max" (.column "x"), some "m"⟩]

/-- A table with a text and a null in its one column. -/
def textAndNull : Table :=
  ⟨["t.x"], [[.text "a"], [.null]]⟩

/-- The setting of a store without tables. -/
def noTables : Setting where
  store _ := .ok []

theorem evaluate_fails_alike_examples :
    -- behind the alias the aggregate has a value, and the other name is unknown
    (GroupsAlike 1 (some [[.text "a"]]) (some [[.null], [.boolean true]]) ∧
      Scope.evaluate { columns := ["t.x"], aliases := greatest, group := some [[.text "a"]] }
        (.binary .lt (.column "m") (.column "y")) [.text "a"] = .error (.unknownColumn "y") ∧
      Scope.evaluate
        { columns := ["t.x"], aliases := greatest, group := some [[.null], [.boolean true]] }
        (.binary .lt (.column "m") (.column "y")) [.integer 7] = .error (.unknownColumn "y")) ∧
    -- in a filter there is no group
    (textAndNull.Rectangular ∧
      Trace.filterRows noTables greatest (.column "m") textAndNull = (do
        Run.keepPace noTables 0
        throw (.evaluation .ungroupedAggregate))) := by
  have halike : GroupsAlike 1 (some [[.text "a"]]) (some [[.null], [.boolean true]]) := by
    simp [GroupsAlike]
  have hrect : textAndNull.Rectangular := by simp [Table.Rectangular, textAndNull]
  refine ⟨⟨halike, ?_⟩, hrect, ?_⟩
  · have hcause : cause? (Scope.evaluate
        { columns := ["t.x"], aliases := greatest, group := some [[.text "a"]] }
        (.binary .lt (.column "m") (.column "y")) [.text "a"]) = some (.unknownColumn "y") := by
      decide +kernel
    rcases (evaluate_fails_alike greatest (.binary .lt (.column "m") (.column "y"))).1 ["t.x"]
      (some [[.text "a"]]) (some [[.null], [.boolean true]]) [.text "a"] [.integer 7] rfl halike
      with ⟨v, v', h, -⟩ | ⟨cause, h, h'⟩
    · rw [h] at hcause
      cases hcause
    · rw [h] at hcause
      cases hcause
      exact ⟨h, h'⟩
  · have hcause : cause? (Scope.evaluate { columns := ["t.x"], aliases := greatest } (.column "m")
        [.text "a"]) = some .ungroupedAggregate := by decide +kernel
    rcases (evaluate_fails_alike greatest (.column "m")).2 noTables textAndNull hrect with
      ⟨row, rows, cause, ht, he, hfilter⟩ | ⟨hall, -⟩
    · cases ht
      rw [show textAndNull.columns = ["t.x"] from rfl, cause?_eq_some_iff.mp hcause] at he
      cases he
      exact hfilter
    · obtain ⟨v, hv⟩ := hall [.text "a"] (by simp [textAndNull])
      rw [show textAndNull.columns = ["t.x"] from rfl, cause?_eq_some_iff.mp hcause] at hv
      cases hv

end QueryTrace

/-
Evaluation, one form of expression at a time.

* `Scope.evaluateIn` — the value of an expression when so many aliases may still be followed, with
  one equation for each form of expression and each meaning of a name;
* `evaluateIn_reference_cases` and `evaluateIn_binary_eq_ok` — where a value comes from;
* `Scope.evaluation_induction` — what holds of the forms, and goes through aliases, holds of all
  expressions;
* `Expr.asked` — the names that are looked up, and `Scope.Refers`: what they stand for;
* `Scope.Throughout` — a property of an expression and of all that it refers to;
* `Route`, `Route.follow` — where no expression refers to itself there are aliases enough.

Design notes: a star in `count(*)` is never looked up, so it is not asked for, although the
expression mentions it.
-/
import QueryTrace.Proofs.Aliases

namespace QueryTrace

open Relation (ReflTransGen TransGen)

namespace Scope

/-- The value of an expression on a row when at most `steps` aliases may still be followed. -/
def evaluateIn (scope : Scope) (steps : Nat) (e : Expr) (row : Row) : Except EvalError Value :=
  e.evalUsing (scope.resolve steps) scope.group row

theorem evaluate_eq_evaluateIn (scope : Scope) (e : Expr) (row : Row) :
    scope.evaluate e row = scope.evaluateIn scope.aliases.length e row := rfl

/-! ### Equations -/

section Equations

variable {scope : Scope} {steps : Nat} {e d l r argument : Expr} {function n : String} {row : Row}
  {rows : List Row}

theorem evaluateIn_cell {i : Nat} (hn : e.reference? = some n)
    (hi : columnIndex? scope.columns n = some i) :
    scope.evaluateIn steps e row = cell n row i := by
  rw [evaluateIn, Expr.evalUsing_of_reference? hn, resolve_of_columnIndex? hi]

theorem evaluateIn_unknown (hn : e.reference? = some n) (hc : columnIndex? scope.columns n = none)
    (hd : scope.definition? n = none) :
    scope.evaluateIn steps e row = .error (.unknownColumn n) := by
  rw [evaluateIn, Expr.evalUsing_of_reference? hn, resolve_of_unknown hc hd]

theorem evaluateIn_alias (hn : e.reference? = some n) (hs : scope.standsFor? n = some d) :
    scope.evaluateIn (steps + 1) e row = scope.evaluateIn steps d row := by
  rw [evaluateIn, Expr.evalUsing_of_reference? hn, resolve_succ_of_alias hs, evaluateIn]

theorem evaluateIn_circular (hn : e.reference? = some n) (hs : scope.standsFor? n = some d) :
    scope.evaluateIn 0 e row = .error (.circularAlias n) := by
  rw [evaluateIn, Expr.evalUsing_of_reference? hn, resolve_zero_of_alias hs]

theorem evaluateIn_ungrouped (hg : scope.group = none) :
    scope.evaluateIn steps (.aggregate function argument) row = .error .ungroupedAggregate := by
  rw [evaluateIn, hg, Expr.evalUsing]

theorem evaluateIn_counted (hg : scope.group = some rows)
    (hc : Aggregate.countsRows function.toLower argument = true) :
    scope.evaluateIn steps (.aggregate function argument) row =
      .ok (.integer (Int64.ofNat rows.length)) := by
  rw [evaluateIn, hg, Expr.evalUsing, if_pos hc]

theorem evaluateIn_aggregate (hg : scope.group = some rows)
    (hc : Aggregate.countsRows function.toLower argument = false) :
    scope.evaluateIn steps (.aggregate function argument) row =
      rows.mapM (scope.evaluateIn steps argument) >>= Aggregate.apply function.toLower := by
  unfold evaluateIn
  rw [hg, Expr.evalUsing, if_neg (Bool.eq_false_iff.mp hc)]

theorem evaluateIn_binary (op : BinOp) : scope.evaluateIn steps (.binary op l r) row = (do
    let a ← scope.evaluateIn steps l row
    let b ← scope.evaluateIn steps r row
    return op.apply a b) := rfl

end Equations

/-! ### Values -/

section Values

variable {scope : Scope} {steps : Nat} {e d l r : Expr} {n : String} {row : Row} {v : Value}

theorem standsFor?_of_columnIndex? {i : Nat} (hi : columnIndex? scope.columns n = some i) :
    scope.standsFor? n = none := by
  rw [standsFor?, hi]

/-- An alias that has a value was followed. -/
theorem follow_of_evaluateIn (hn : e.reference? = some n) (hs : scope.standsFor? n = some d)
    (h : scope.evaluateIn steps e row = .ok v) :
    ∃ left, steps = left + 1 ∧ scope.evaluateIn left d row = .ok v := by
  cases steps with
  | zero =>
    rw [evaluateIn_circular hn hs] at h
    cases h
  | succ left =>
    rw [evaluateIn_alias hn hs] at h
    exact ⟨left, rfl, h⟩

/-- The value of a name is that of a cell, or of what the name stands for. -/
theorem evaluateIn_reference_cases (hn : e.reference? = some n)
    (h : scope.evaluateIn steps e row = .ok v) :
    (∃ i, columnIndex? scope.columns n = some i ∧ row[i]? = some v) ∨
      ∃ left d, steps = left + 1 ∧ scope.standsFor? n = some d ∧
        scope.evaluateIn left d row = .ok v := by
  rcases scope.lookup_cases n with ⟨i, hi⟩ | ⟨hc, hd⟩ | ⟨d, hs⟩
  · rw [evaluateIn_cell hn hi, cell] at h
    split at h
    · next w hw =>
      cases h
      exact .inl ⟨i, hi, hw⟩
    · cases h
  · rw [evaluateIn_unknown hn hc hd] at h
    cases h
  · obtain ⟨left, rfl, hleft⟩ := follow_of_evaluateIn hn hs h
    exact .inr ⟨left, d, rfl, hs, hleft⟩

theorem evaluateIn_binary_eq_ok {op : BinOp} :
    scope.evaluateIn steps (.binary op l r) row = .ok v ↔
      ∃ a b, scope.evaluateIn steps l row = .ok a ∧ scope.evaluateIn steps r row = .ok b ∧
        op.apply a b = v := by
  rw [evaluateIn_binary, except_bind_eq_ok]
  constructor
  · rintro ⟨a, ha, h⟩
    obtain ⟨b, hb, h⟩ := except_bind_eq_ok.mp h
    exact ⟨a, b, ha, hb, Except.ok.inj h⟩
  · rintro ⟨a, b, ha, hb, rfl⟩
    exact ⟨a, ha, except_bind_eq_ok.mpr ⟨b, hb, rfl⟩⟩

end Values

/-- What holds of each form of expression if it holds of its parts, and of a name if it holds of
what the name stands for, holds of all expressions. -/
theorem evaluation_induction (scope : Scope) {motive : Nat → Expr → Prop}
    (number : ∀ steps raw, motive steps (.number raw))
    (text : ∀ steps content, motive steps (.text content))
    (reference : ∀ steps e n, e.reference? = some n →
      (∀ left d, steps = left + 1 → scope.standsFor? n = some d → motive left d) → motive steps e)
    (aggregate : ∀ steps function argument, motive steps argument →
      motive steps (.aggregate function argument))
    (binary : ∀ steps op l r, motive steps l → motive steps r → motive steps (.binary op l r))
    (steps : Nat) (e : Expr) : motive steps e := by
  induction steps using Nat.strongRecOn generalizing e with
  | ind steps ih =>
    have halias : ∀ left (d : Expr), steps = left + 1 → motive left d :=
      fun left d hleft => ih left (by omega) d
    induction e with
    | number raw => exact number steps raw
    | text content => exact text steps content
    | column | qualified =>
      exact reference steps _ _ rfl fun left d hleft _ => halias left d hleft
    | aggregate function argument iha => exact aggregate steps function argument iha
    | binary op l r ihl ihr => exact binary steps op l r ihl ihr

end Scope

/-! ### What an expression refers to -/

/-- The names in an expression that are looked up.  A star that is counted is none of them. -/
def Expr.asked : Expr → List String
  | column name => [name]
  | qualified table name => [table ++ "." ++ name]
  | aggregate function argument =>
    if Aggregate.countsRows function.toLower argument then [] else argument.asked
  | binary _ l r => l.asked ++ r.asked
  | _ => []

theorem Expr.asked_of_reference? {e : Expr} {n : String} (h : e.reference? = some n) :
    e.asked = [n] := by
  cases e <;> cases h <;> rfl

theorem Expr.asked_aggregate {function : String} {argument : Expr}
    (hc : Aggregate.countsRows function.toLower argument = false) :
    (aggregate function argument).asked = argument.asked := by
  rw [asked, if_neg (Bool.eq_false_iff.mp hc)]

namespace Scope

/-- Does the second expression stand behind an alias that the first one asks for? -/
def Refers (scope : Scope) (e d : Expr) : Prop :=
  ∃ n ∈ e.asked, scope.standsFor? n = some d

/-- Has the expression the property, and all that it refers to, directly or through others? -/
def Throughout (scope : Scope) (P : Expr → Prop) (e : Expr) : Prop :=
  ∀ d, ReflTransGen scope.Refers e d → P d

/-- Does no chain of references from the expression go on for ever? -/
def Grounded (scope : Scope) (e : Expr) : Prop :=
  Acc (fun d e => scope.Refers e d) e

section References

variable {scope : Scope} {P : Expr → Prop} {e e' d : Expr} {n : String}

theorem Refers.mono (h : scope.Refers e' d) (hsub : ∀ n ∈ e'.asked, n ∈ e.asked) :
    scope.Refers e d := by
  obtain ⟨n, hn, hd⟩ := h
  exact ⟨n, hsub n hn, hd⟩

theorem refers_reference_iff (hn : e.reference? = some n) :
    scope.Refers e d ↔ scope.standsFor? n = some d := by
  simp [Refers, Expr.asked_of_reference? hn]

theorem Throughout.self (h : scope.Throughout P e) : P e :=
  h e .refl

theorem Throughout.follow (h : scope.Throughout P e) (hd : scope.Refers e d) :
    scope.Throughout P d :=
  fun d' hd' => h d' (.head hd hd')

theorem Throughout.part (h : scope.Throughout P e) (hP : P e')
    (hsub : ∀ n ∈ e'.asked, n ∈ e.asked) : scope.Throughout P e' := by
  intro d hd
  rcases hd.cases_head with heq | ⟨d', hd', hrest⟩
  · exact heq ▸ hP
  · exact h d (.head (hd'.mono hsub) hrest)

/-- What an expression and the entries of the select list have, all that is referred to has. -/
theorem throughout_of_entries (he : P e) (h : ∀ entry ∈ scope.aliases, P entry.item) :
    scope.Throughout P e := by
  intro d hd
  cases hd with
  | refl => exact he
  | tail _ hd =>
    obtain ⟨n, -, hs⟩ := hd
    obtain ⟨entry, hentry, -, rfl⟩ := standsFor?_mem hs
    exact h entry hentry

theorem Grounded.follow (h : scope.Grounded e) (hd : scope.Refers e d) : scope.Grounded d :=
  h.inv hd

theorem grounded_of_asked (h : ∀ d, scope.Refers e d → scope.Grounded d) : scope.Grounded e :=
  .intro e h

theorem Grounded.not_refers_self (h : scope.Grounded e) : ¬ TransGen scope.Refers e e := by
  induction h with
  | intro e _ ih =>
    intro hcycle
    obtain ⟨d, hd, hback⟩ := TransGen.head'_iff.mp hcycle
    exact ih d hd (TransGen.tail' hback hd)

end References

/-! ### Enough aliases -/

/-- The aliases that were passed on the way to an expression, when at most `steps` more may be
followed, and the expression does not lead back to itself. -/
structure Route (scope : Scope) (passed : List String) (steps : Nat) (e : Expr) : Prop where
  nodup : passed.Nodup
  behind : ∀ n ∈ passed, ∃ d, scope.standsFor? n = some d ∧
    ∀ d', scope.Refers e d' → TransGen scope.Refers d d'
  room : scope.aliases.length ≤ passed.length + steps
  grounded : scope.Grounded e

section Routes

variable {scope : Scope} {passed : List String} {steps : Nat} {e e' d : Expr} {n : String}

theorem route_of_grounded (h : scope.Grounded e) : scope.Route [] scope.aliases.length e where
  nodup := List.nodup_nil
  behind := by simp
  room := by simp
  grounded := h

theorem Route.part (h : scope.Route passed steps e) (hsub : ∀ n ∈ e'.asked, n ∈ e.asked) :
    scope.Route passed steps e' where
  nodup := h.nodup
  behind := by
    intro n hn
    obtain ⟨d, hd, hrefers⟩ := h.behind n hn
    exact ⟨d, hd, fun d' hd' => hrefers d' (hd'.mono hsub)⟩
  room := h.room
  grounded := grounded_of_asked fun d hd => h.grounded.follow (hd.mono hsub)

/-- **One more alias can be followed**, since none is passed twice and there are no more of them
than entries in the select list. -/
theorem Route.follow (h : scope.Route passed steps e) (hn : n ∈ e.asked)
    (hd : scope.standsFor? n = some d) :
    ∃ left, steps = left + 1 ∧ scope.Route (n :: passed) left d := by
  have hrefers : scope.Refers e d := ⟨n, hn, hd⟩
  have hground := h.grounded.follow hrefers
  -- what an alias that was passed stands for would refer to itself
  have hnew : n ∉ passed := by
    intro hpassed
    obtain ⟨d', hd', hback⟩ := h.behind n hpassed
    rw [hd] at hd'
    cases hd'
    exact hground.not_refers_self (hback d hrefers)
  have hnodup : (n :: passed).Nodup := List.nodup_cons.mpr ⟨hnew, h.nodup⟩
  have hstands : ∀ m ∈ n :: passed, ∃ d, scope.standsFor? m = some d := by
    intro m hm
    rcases List.mem_cons.mp hm with rfl | hm
    · exact ⟨d, hd⟩
    · obtain ⟨d', hd', -⟩ := h.behind m hm
      exact ⟨d', hd'⟩
  have hlength := length_le_of_aliases hnodup hstands
  have hroom := h.room
  rw [List.length_cons] at hlength
  refine ⟨steps - 1, by omega, hnodup, ?_, by rw [List.length_cons]; omega, hground⟩
  intro m hm
  rcases List.mem_cons.mp hm with rfl | hm
  · exact ⟨d, hd, fun d' hd' => .single hd'⟩
  · obtain ⟨d', hd', hback⟩ := h.behind m hm
    exact ⟨d', hd', fun d'' hd'' => (hback d hrefers).tail hd''⟩

end Routes

end Scope

end QueryTrace

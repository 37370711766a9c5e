/-
Integers are exact.

Sums, differences and products of integers are integers where the result has at most 64 bits, and
reals otherwise, and an aggregate adds up its values one after the other.  So a result may leave the
integers on the way.  This file shows that it never comes back: an integer is the value that the
expression has among the integers without bounds.

* `BinOp.integers_of_apply`, `Aggregate.integers_of_sum` — an integer comes of integers only;
* `Scope.Exact` — the value without bounds, by rules, with a condition on each result on the way;
* `exact_of_evaluateIn` — an integer is the exact value;
* `Scope.Integral` — all cells that are referred to in the end are integers, and
  `Integral.evaluates`: then there is a value;
* `integer_of_exact` — the value is an integer if each result on the way fits;
* **`evaluate_exact`** — all of this for the expressions that are evaluated.

Design notes: the argument of a count is evaluated but its values are not looked at, so nothing on
the way to them needs to fit.  `Integral` is inductive, so where it holds no alias leads back to
itself: an alias that does leads to no cell.
-/
import Mathlib.Algebra.Group.Nat.Defs
import Mathlib.Algebra.Ring.Int.Defs
import QueryTrace.Proofs.References

namespace QueryTrace

/-! ### Operations on integers -/

/-- Is the integer one of 64 bits? -/
def Fits (z : Int) : Prop :=
  Int64.minValue.toInt ≤ z ∧ z ≤ Int64.maxValue.toInt

instance (z : Int) : Decidable (Fits z) :=
  inferInstanceAs (Decidable (_ ∧ _))

/-- The exact operation on integers, of the three that stay with them. -/
def BinOp.exact? : BinOp → Option (Int → Int → Int)
  | add => some (· + ·)
  | sub => some (· - ·)
  | mul => some (· * ·)
  | _ => none

namespace Value

theorem ofInt?_of_fits {z : Int} (h : Fits z) :
    ∃ n, ofInt? z = some (integer n) ∧ n.toInt = z := by
  have hn : ofInt? z = some (integer (Int64.ofInt z)) := if_pos h
  exact ⟨_, hn, toInt_of_ofInt? hn⟩

theorem onReals_ne_integer (op : Float → Float → Float) (a b : Value) (n : Int64) :
    onReals op a b ≠ integer n := by
  unfold onReals
  split <;> exact nofun

/-- An integer comes of two integers only, and it is exact. -/
theorem integers_of_onNumbers {exact : Int → Int → Int} {op : Float → Float → Float} {a b : Value}
    {n : Int64} (h : onNumbers exact op a b = integer n) :
    ∃ k m, a = integer k ∧ b = integer m ∧ n.toInt = exact k.toInt m.toInt := by
  unfold onNumbers at h
  split at h
  · next k m =>
    refine ⟨k, m, rfl, rfl, ?_⟩
    cases hz : ofInt? (exact k.toInt m.toInt) with
    | none =>
      rw [hz, Option.getD_none] at h
      exact absurd h (onReals_ne_integer op _ _ n)
    | some v =>
      rw [hz] at h
      cases h
      exact toInt_of_ofInt? hz
  · exact absurd h (onReals_ne_integer op a b n)

theorem onNumbers_of_fits {exact : Int → Int → Int} (op : Float → Float → Float) {k m : Int64}
    (h : Fits (exact k.toInt m.toInt)) :
    ∃ n, onNumbers exact op (integer k) (integer m) = integer n ∧
      n.toInt = exact k.toInt m.toInt := by
  obtain ⟨n, hn, hexact⟩ := ofInt?_of_fits h
  refine ⟨n, ?_, hexact⟩
  rw [onNumbers, hn]
  rfl

theorem integers_of_add {a b : Value} {n : Int64} (h : a.add b = integer n) :
    ∃ k m, a = integer k ∧ b = integer m ∧ n.toInt = k.toInt + m.toInt := by
  unfold add at h
  split at h
  · cases h
  · exact integers_of_onNumbers h

theorem add_of_fits {k m : Int64} (h : Fits (k.toInt + m.toInt)) :
    ∃ n, (integer k).add (integer m) = integer n ∧ n.toInt = k.toInt + m.toInt :=
  onNumbers_of_fits _ h

end Value

namespace BinOp

variable {op : BinOp} {exact : Int → Int → Int}

theorem integers_of_apply (hop : op.exact? = some exact) {a b : Value} {n : Int64}
    (h : op.apply a b = .integer n) :
    ∃ k m, a = .integer k ∧ b = .integer m ∧ n.toInt = exact k.toInt m.toInt := by
  cases op <;> cases hop
  · exact Value.integers_of_add h
  · exact Value.integers_of_onNumbers h
  · exact Value.integers_of_onNumbers h

theorem apply_of_fits (hop : op.exact? = some exact) {k m : Int64}
    (h : Fits (exact k.toInt m.toInt)) :
    ∃ n, op.apply (.integer k) (.integer m) = .integer n ∧ n.toInt = exact k.toInt m.toInt := by
  cases op <;> cases hop <;> exact Value.onNumbers_of_fits _ h

end BinOp

/-! ### Sums -/

namespace Aggregate

/-- An integer comes of a fold over integers only, and it is the exact sum. -/
theorem integers_of_foldl_add {vs : List Value} {v : Value} {n : Int64}
    (h : vs.foldl Value.add v = .integer n) :
    ∃ (k : Int64) (ns : List Int64), v = .integer k ∧ vs = ns.map Value.integer ∧
      n.toInt = k.toInt + (ns.map Int64.toInt).sum := by
  induction vs generalizing v with
  | nil => exact ⟨n, [], h, rfl, (Int.add_zero _).symm⟩
  | cons w vs ih =>
    obtain ⟨s, ns, hs, rfl, hn⟩ := ih h
    obtain ⟨k, m, rfl, rfl, hadd⟩ := Value.integers_of_add hs
    refine ⟨k, m :: ns, rfl, rfl, ?_⟩
    rw [hn, hadd, List.map_cons, List.sum_cons, Int.add_assoc]

theorem integers_of_sum {vs : List Value} {n : Int64} (h : sum vs = .integer n) :
    ∃ ns : List Int64, vs = ns.map Value.integer ∧ n.toInt = (ns.map Int64.toInt).sum := by
  cases vs with
  | nil => cases h
  | cons v vs =>
    obtain ⟨k, ns, rfl, rfl, hn⟩ := integers_of_foldl_add h
    exact ⟨k :: ns, rfl, hn⟩

/-- A fold over integers stays with them as long as the sums on the way fit. -/
theorem foldl_add_of_fits {ns : List Int64} {k : Int64}
    (h : ∀ i, Fits (k.toInt + ((ns.take i).map Int64.toInt).sum)) :
    ∃ n, (ns.map Value.integer).foldl Value.add (.integer k) = .integer n ∧
      n.toInt = k.toInt + (ns.map Int64.toInt).sum := by
  induction ns generalizing k with
  | nil => exact ⟨k, rfl, (Int.add_zero _).symm⟩
  | cons m ns ih =>
    have hstep : Fits (k.toInt + m.toInt) := by simpa using h 1
    obtain ⟨s, hs, hexact⟩ := Value.add_of_fits hstep
    have hrest : ∀ i, Fits (s.toInt + ((ns.take i).map Int64.toInt).sum) := by
      intro i
      have hi := h (i + 1)
      rw [List.take_succ_cons, List.map_cons, List.sum_cons, ← Int.add_assoc] at hi
      rwa [hexact]
    obtain ⟨n, hn, hsum⟩ := ih hrest
    refine ⟨n, ?_, ?_⟩
    · rw [List.map_cons, List.foldl_cons, hs, hn]
    · rw [hsum, hexact, List.map_cons, List.sum_cons, Int.add_assoc]

theorem sum_of_fits {ns : List Int64} (hne : ns ≠ [])
    (h : ∀ i, Fits ((ns.take i).map Int64.toInt).sum) :
    ∃ n, sum (ns.map Value.integer) = .integer n ∧ n.toInt = (ns.map Int64.toInt).sum := by
  cases ns with
  | nil => exact absurd rfl hne
  | cons k ns => exact foldl_add_of_fits fun i => by simpa using h (i + 1)

end Aggregate

/-! ### Exact values -/

/-- Is the expression made of columns, sums, differences and products, and of the aggregates that
add up and count? -/
def Expr.Arithmetic : Expr → Prop
  | column _ => True
  | qualified _ _ => True
  | aggregate function argument =>
    (function.toLower = "sum" ∨ function.toLower = "count") ∧ argument.Arithmetic
  | binary op l r => op.exact?.isSome = true ∧ l.Arithmetic ∧ r.Arithmetic
  | _ => False

/-! ### Rows and their integers -/

section Rows

variable {f : Row → Except EvalError Value} {rows : List Row}

theorem mapM_integers {ks : Row → Int64} (h : ∀ r ∈ rows, f r = .ok (.integer (ks r))) :
    rows.mapM f = .ok ((rows.map ks).map .integer) := by
  rw [Trace.mapM_eq_ok_iff, List.map_map, List.forall₂_map_right_iff, List.forall₂_same]
  exact h

/-- Where all values are integers, there is one for each row. -/
theorem exists_integers_of_mapM {ns : List Int64} (h : rows.mapM f = .ok (ns.map .integer)) :
    ∃ ks : Row → Int64, rows.map ks = ns ∧ ∀ r ∈ rows, f r = .ok (.integer (ks r)) := by
  have hfound : ∀ r ∈ rows, ∃ k, f r = .ok (.integer k) := by
    intro r hr
    obtain ⟨i, hi⟩ := List.getElem?_of_mem hr
    obtain ⟨v, hv, hvs⟩ := Trace.getElem?_of_mapM h hi
    obtain ⟨k, -, rfl⟩ := List.mem_map.mp (List.mem_of_getElem? hvs)
    exact ⟨k, hv⟩
  choose! ks hks using hfound
  refine ⟨ks, ?_, hks⟩
  have hmap := Except.ok.inj ((mapM_integers hks).symm.trans h)
  exact List.map_injective_iff.mpr (fun _ _ => Value.integer.inj) hmap

end Rows

namespace Scope

/-- The value of an expression among the integers, which have no bounds.  Only integers that are
allowed may be the result of an operation or a sum on the way, up to any row. -/
inductive Exact (scope : Scope) (Allowed : Int → Prop) : Expr → Row → Int → Prop where
  | cell {e : Expr} {n : String} {row : Row} {i : Nat} {k : Int64} (hn : e.reference? = some n)
    (hi : columnIndex? scope.columns n = some i) (hk : row[i]? = some (.integer k)) :
    Exact scope Allowed e row k.toInt
  | followed {e d : Expr} {n : String} {row : Row} {z : Int} (hn : e.reference? = some n)
    (hs : scope.standsFor? n = some d) (h : Exact scope Allowed d row z) :
    Exact scope Allowed e row z
  | operation {op : BinOp} {exact : Int → Int → Int} {l r : Expr} {row : Row} {a b : Int}
    (hop : op.exact? = some exact) (hl : Exact scope Allowed l row a)
    (hr : Exact scope Allowed r row b) (hz : Allowed (exact a b)) :
    Exact scope Allowed (.binary op l r) row (exact a b)
  | count {function : String} {argument : Expr} {row : Row} {rows : List Row}
    (hf : function.toLower = "count") (hg : scope.group = some rows) :
    Exact scope Allowed (.aggregate function argument) row rows.length
  | sum {function : String} {argument : Expr} {row : Row} {rows : List Row} {values : Row → Int}
    (hf : function.toLower = "sum") (hg : scope.group = some rows)
    (h : ∀ r ∈ rows, Exact scope Allowed argument r (values r))
    (hz : ∀ i, Allowed ((rows.take i).map values).sum) :
    Exact scope Allowed (.aggregate function argument) row (rows.map values).sum

/-- Is there an integer in each cell that the expression refers to in the end, and a row in the
group of each aggregate? -/
inductive Integral (scope : Scope) : Expr → Row → Prop where
  | cell {e : Expr} {n : String} {row : Row} {i : Nat} {k : Int64} (hn : e.reference? = some n)
    (hi : columnIndex? scope.columns n = some i) (hk : row[i]? = some (.integer k)) :
    Integral scope e row
  | followed {e d : Expr} {n : String} {row : Row} (hn : e.reference? = some n)
    (hs : scope.standsFor? n = some d) (h : Integral scope d row) : Integral scope e row
  | operation {op : BinOp} {l r : Expr} {row : Row} (hl : Integral scope l row)
    (hr : Integral scope r row) : Integral scope (.binary op l r) row
  | counted {function : String} {argument : Expr} {row : Row} {rows : List Row}
    (hg : scope.group = some rows) (hne : rows ≠ [])
    (hc : Aggregate.countsRows function.toLower argument = true) :
    Integral scope (.aggregate function argument) row
  | aggregate {function : String} {argument : Expr} {row : Row} {rows : List Row}
    (hg : scope.group = some rows) (hne : rows ≠ [])
    (hc : Aggregate.countsRows function.toLower argument = false)
    (h : ∀ r ∈ rows, Integral scope argument r) : Integral scope (.aggregate function argument) row

section Values

variable {scope : Scope} {Allowed : Int → Prop} {steps : Nat} {e d : Expr} {function n : String}
  {row : Row} {rows : List Row}

/-- The rules give no two values. -/
theorem Exact.unique {z z' : Int} (h : scope.Exact Allowed e row z)
    (h' : scope.Exact Allowed e row z') : z = z' := by
  -- the form of the expression and the meaning of its name leave one rule for each value
  induction h generalizing z' with
  | @cell e n row i k hn hi hk =>
    cases h' with
    | cell hn' hi' hk' =>
      cases hn.symm.trans hn'
      cases hi.symm.trans hi'
      cases hk.symm.trans hk'
      rfl
    | followed hn' hs' _ =>
      cases hn.symm.trans hn'
      cases (standsFor?_of_columnIndex? hi).symm.trans hs'
    | operation | count | sum => cases hn
  | @followed e d n row z hn hs _ ih =>
    cases h' with
    | cell hn' hi' _ =>
      cases hn.symm.trans hn'
      cases (standsFor?_of_columnIndex? hi').symm.trans hs
    | followed hn' hs' h' =>
      cases hn.symm.trans hn'
      cases hs.symm.trans hs'
      exact ih h'
    | operation | count | sum => cases hn
  | operation hop _ _ _ ihl ihr =>
    cases h' with
    | cell hn' | followed hn' => cases hn'
    | operation hop' hl' hr' =>
      cases hop.symm.trans hop'
      rw [ihl hl', ihr hr']
  | count hf hg =>
    cases h' with
    | cell hn' | followed hn' => cases hn'
    | count _ hg' =>
      cases hg.symm.trans hg'
      rfl
    | sum hf' => exact absurd (hf.symm.trans hf') (by decide)
  | sum hf hg _ _ ih =>
    cases h' with
    | cell hn' | followed hn' => cases hn'
    | count hf' => exact absurd (hf.symm.trans hf') (by decide)
    | sum _ hg' h' =>
      cases hg.symm.trans hg'
      congr 1
      exact List.map_congr_left fun r hr => ih r hr (h' r hr)

/-! ### Integers are exact -/

theorem Throughout.argument {argument : Expr}
    (h : scope.Throughout Expr.Arithmetic (.aggregate function argument))
    (hc : Aggregate.countsRows function.toLower argument = false) :
    scope.Throughout Expr.Arithmetic argument :=
  h.part h.self.2 fun n hn => by rwa [Expr.asked_aggregate hc]

theorem Throughout.operands {op : BinOp} {l r : Expr}
    (h : scope.Throughout Expr.Arithmetic (.binary op l r)) :
    scope.Throughout Expr.Arithmetic l ∧ scope.Throughout Expr.Arithmetic r := by
  obtain ⟨-, hl, hr⟩ := h.self
  exact ⟨h.part hl fun n hn => List.mem_append_left _ hn,
    h.part hr fun n hn => List.mem_append_right _ hn⟩

/-- Are there fewer rows in the group than positive integers of 64 bits? -/
def Countable (scope : Scope) : Prop :=
  ∀ rows, scope.group = some rows → rows.length < 2 ^ 63

theorem toInt_ofNat_length (hcount : scope.Countable) (hg : scope.group = some rows) :
    (Int64.ofNat rows.length).toInt = rows.length :=
  Int64.toInt_ofNat_of_lt (hcount rows hg)

section Aggregates

variable {argument : Expr}

theorem countsRows_of_sum (hf : function.toLower = "sum") :
    Aggregate.countsRows function.toLower argument = false := by
  rw [Aggregate.countsRows, hf]
  rfl

/-- The number of rows is what any count comes to. -/
theorem evaluateIn_count {v : Value} (hf : function.toLower = "count")
    (hg : scope.group = some rows)
    (h : scope.evaluateIn steps (.aggregate function argument) row = .ok v) :
    v = .integer (Int64.ofNat rows.length) := by
  cases hc : Aggregate.countsRows function.toLower argument with
  | true =>
    rw [evaluateIn_counted hg hc] at h
    cases h
    rfl
  | false =>
    -- any other argument has a value on each row, and these are counted
    rw [evaluateIn_aggregate hg hc, except_bind_eq_ok] at h
    obtain ⟨values, hvalues, hv⟩ := h
    rw [hf] at hv
    cases hv
    rw [Aggregate.count, mapM_length hvalues]

theorem evaluateIn_sum (hf : function.toLower = "sum") (hg : scope.group = some rows) :
    scope.evaluateIn steps (.aggregate function argument) row =
      (rows.mapM (scope.evaluateIn steps argument)).map Aggregate.sum := by
  rw [evaluateIn_aggregate hg (countsRows_of_sum hf), hf]
  cases rows.mapM (scope.evaluateIn steps argument) <;> rfl

end Aggregates

/-- **An integer is the exact value.** -/
theorem exact_of_evaluateIn (hcount : scope.Countable) {k : Int64}
    (he : scope.Throughout Expr.Arithmetic e)
    (h : scope.evaluateIn steps e row = .ok (.integer k)) :
    scope.Exact (fun _ => True) e row k.toInt := by
  induction steps, e using scope.evaluation_induction generalizing row k with
  | number | text => exact absurd he.self id
  | reference steps e n hn ih =>
    rcases evaluateIn_reference_cases hn h with ⟨i, hi, hk⟩ | ⟨left, d, rfl, hs, h⟩
    · exact .cell hn hi hk
    · exact .followed hn hs (ih left d rfl hs (he.follow ((refers_reference_iff hn).mpr hs)) h)
  | aggregate steps function argument ih =>
    cases hg : scope.group with
    | none =>
      rw [evaluateIn_ungrouped hg] at h
      cases h
    | some rows =>
      rcases he.self.1 with hf | hf
      · rw [evaluateIn_sum hf hg, except_map_eq_ok] at h
        obtain ⟨values, hvalues, hsum⟩ := h
        -- had one of the values been anything else, so would be the sum
        obtain ⟨ns, rfl, hk⟩ := Aggregate.integers_of_sum hsum
        obtain ⟨ks, rfl, hns⟩ := exists_integers_of_mapM hvalues
        have hargument := he.argument (countsRows_of_sum hf)
        rw [hk, List.map_map]
        exact .sum hf hg (fun r hr => ih hargument (hns r hr)) fun _ => trivial
      · obtain ⟨⟩ := evaluateIn_count hf hg h
        rw [toInt_ofNat_length hcount hg]
        exact .count hf hg
  | binary steps op l r ihl ihr =>
    obtain ⟨a, b, ha, hb, h⟩ := evaluateIn_binary_eq_ok.mp h
    obtain ⟨exact, hop⟩ := Option.isSome_iff_exists.mp he.self.1
    obtain ⟨k, m, rfl, rfl, hk⟩ := BinOp.integers_of_apply hop h
    rw [hk]
    exact .operation hop (ihl he.operands.1 ha) (ihr he.operands.2 hb) trivial

/-! ### Where everything fits -/

namespace Integral

theorem of_alias (hn : e.reference? = some n) (hs : scope.standsFor? n = some d)
    (h : scope.Integral e row) : scope.Integral d row := by
  cases h with
  | cell hn' hi =>
    cases hn.symm.trans hn'
    cases (standsFor?_of_columnIndex? hi).symm.trans hs
  | followed hn' hs' h =>
    cases hn.symm.trans hn'
    cases hs.symm.trans hs'
    exact h
  | operation | counted | aggregate => cases hn

theorem operands {op : BinOp} {l r : Expr} (h : scope.Integral (.binary op l r) row) :
    scope.Integral l row ∧ scope.Integral r row := by
  cases h with
  | cell hn | followed hn => cases hn
  | operation hl hr => exact ⟨hl, hr⟩

theorem argument {argument : Expr} (hc : Aggregate.countsRows function.toLower argument = false)
    (hg : scope.group = some rows) (h : scope.Integral (.aggregate function argument) row) :
    rows ≠ [] ∧ ∀ r ∈ rows, scope.Integral argument r := by
  cases h with
  | cell hn | followed hn => cases hn
  | counted _ _ hc' => cases hc.symm.trans hc'
  | aggregate hg' hne _ h =>
    cases hg.symm.trans hg'
    exact ⟨hne, h⟩

/-- No alias that leads to cells leads back to itself. -/
theorem grounded (h : scope.Integral e row) : scope.Grounded e := by
  induction h with
  | cell hn hi =>
    refine grounded_of_asked fun d hd => ?_
    cases (standsFor?_of_columnIndex? hi).symm.trans ((refers_reference_iff hn).mp hd)
  | followed hn hs _ ih =>
    refine grounded_of_asked fun d' hd' => ?_
    cases hs.symm.trans ((refers_reference_iff hn).mp hd')
    exact ih
  | operation _ _ ihl ihr =>
    refine grounded_of_asked fun d hd => ?_
    obtain ⟨n, hn, hs⟩ := hd
    rcases List.mem_append.mp hn with hn | hn
    · exact ihl.follow ⟨n, hn, hs⟩
    · exact ihr.follow ⟨n, hn, hs⟩
  | counted _ _ hc =>
    refine grounded_of_asked fun d hd => ?_
    obtain ⟨n, hn, -⟩ := hd
    rw [Expr.asked, if_pos hc] at hn
    cases hn
  | @aggregate _ _ _ rows _ hne hc _ ih =>
    -- where the argument leads does not depend on the row, and there is one
    obtain ⟨r, hr⟩ := List.exists_mem_of_ne_nil rows hne
    exact grounded_of_asked fun d hd =>
      (ih r hr).follow (hd.mono fun n hn => by rwa [Expr.asked_aggregate hc] at hn)

/-- Where there are integers, there is a value. -/
theorem evaluates {passed : List String} (h : scope.Integral e row)
    (he : scope.Throughout Expr.Arithmetic e) (hroute : scope.Route passed steps e) :
    ∃ v, scope.evaluateIn steps e row = .ok v := by
  induction h generalizing steps passed with
  | cell hn hi hk =>
    rw [evaluateIn_cell hn hi, Scope.cell, hk]
    exact ⟨_, rfl⟩
  | followed hn hs _ ih =>
    have hasked := Expr.asked_of_reference? hn
    obtain ⟨left, rfl, hleft⟩ := hroute.follow (by rw [hasked, List.mem_singleton]) hs
    rw [evaluateIn_alias hn hs]
    exact ih (he.follow ((refers_reference_iff hn).mpr hs)) hleft
  | operation _ _ ihl ihr =>
    obtain ⟨a, ha⟩ := ihl he.operands.1 (hroute.part fun n hn => List.mem_append_left _ hn)
    obtain ⟨b, hb⟩ := ihr he.operands.2 (hroute.part fun n hn => List.mem_append_right _ hn)
    rw [evaluateIn_binary, ha, hb]
    exact ⟨_, rfl⟩
  | counted hg _ hc =>
    rw [evaluateIn_counted hg hc]
    exact ⟨_, rfl⟩
  | aggregate hg _ hc _ ih =>
    have hpart := hroute.part fun n hn => by rwa [Expr.asked_aggregate hc]
    obtain ⟨values, hvalues⟩ := Trace.exists_mapM_eq_ok_iff.mpr fun r hr =>
      ih r hr (he.argument hc) hpart
    rw [evaluateIn_aggregate hg hc, hvalues]
    rcases he.self.1 with hf | hf <;> rw [hf] <;> exact ⟨_, rfl⟩

/-- Where there are integers, there is an exact value. -/
theorem exact (h : scope.Integral e row) (he : scope.Throughout Expr.Arithmetic e) :
    ∃ z, scope.Exact (fun _ => True) e row z := by
  induction h with
  | cell hn hi hk => exact ⟨_, .cell hn hi hk⟩
  | followed hn hs _ ih =>
    obtain ⟨z, hz⟩ := ih (he.follow ((refers_reference_iff hn).mpr hs))
    exact ⟨z, .followed hn hs hz⟩
  | operation _ _ ihl ihr =>
    obtain ⟨a, ha⟩ := ihl he.operands.1
    obtain ⟨b, hb⟩ := ihr he.operands.2
    obtain ⟨exact, hop⟩ := Option.isSome_iff_exists.mp he.self.1
    exact ⟨_, .operation hop ha hb trivial⟩
  | counted hg _ hc =>
    rw [Aggregate.countsRows, Bool.and_eq_true, beq_iff_eq] at hc
    exact ⟨_, .count hc.1 hg⟩
  | aggregate hg _ hc _ ih =>
    rcases he.self.1 with hf | hf
    · choose! values hvalues using fun r hr => ih r hr (he.argument hc)
      exact ⟨_, .sum hf hg hvalues fun _ => trivial⟩
    · exact ⟨_, .count hf hg⟩

end Integral

/-- **Where everything fits, a value is an integer.** -/
theorem integer_of_exact (hcount : scope.Countable) {z : Int} {v : Value}
    (h : scope.Exact Fits e row z) (hcells : scope.Integral e row)
    (hv : scope.evaluateIn steps e row = .ok v) : ∃ k, v = .integer k ∧ k.toInt = z := by
  induction h generalizing steps v with
  | cell hn hi hk =>
    rw [evaluateIn_cell hn hi, cell, hk] at hv
    cases hv
    exact ⟨_, rfl, rfl⟩
  | followed hn hs _ ih =>
    obtain ⟨left, -, hv⟩ := follow_of_evaluateIn hn hs hv
    exact ih (hcells.of_alias hn hs) hv
  | operation hop _ _ hz ihl ihr =>
    obtain ⟨a, b, ha, hb, rfl⟩ := evaluateIn_binary_eq_ok.mp hv
    obtain ⟨k, rfl, rfl⟩ := ihl hcells.operands.1 ha
    obtain ⟨m, rfl, rfl⟩ := ihr hcells.operands.2 hb
    exact BinOp.apply_of_fits hop hz
  | count hf hg => exact ⟨_, evaluateIn_count hf hg hv, toInt_ofNat_length hcount hg⟩
  | @sum function argument row rows values hf hg _ hz ih =>
    obtain ⟨hne, hrows⟩ := hcells.argument (countsRows_of_sum hf) hg
    rw [evaluateIn_sum hf hg, except_map_eq_ok] at hv
    obtain ⟨vs, hvs, rfl⟩ := hv
    have hfound : ∀ r ∈ rows, ∃ k, scope.evaluateIn steps argument r = .ok (.integer k) ∧
        k.toInt = values r := by
      intro r hr
      obtain ⟨w, hw⟩ := Trace.exists_mapM_eq_ok_iff.mp ⟨vs, hvs⟩ r hr
      obtain ⟨k, rfl, hk⟩ := ih r hr (hrows r hr) hw
      exact ⟨k, hw, hk⟩
    choose! ks hks hvalues using hfound
    -- so the sums on the way are those of the exact values, and these fit
    have hsums : ∀ part, part ⊆ rows →
        ((part.map ks).map Int64.toInt).sum = (part.map values).sum := by
      intro part hpart
      rw [List.map_map]
      exact congrArg List.sum (List.map_congr_left fun r hr => hvalues r (hpart hr))
    obtain ⟨⟩ := hvs.symm.trans (mapM_integers hks)
    rw [← hsums rows (List.Subset.refl rows)]
    refine Aggregate.sum_of_fits (mt List.map_eq_nil_iff.mp hne) fun i => ?_
    rw [← List.map_take, hsums _ (List.take_subset i rows)]
    exact hz i

end Values

end Scope

/-- **Integers are exact.**  An integer that sums, differences, products and the aggregates that add
up and count come to is their value among the integers without bounds; and they come to an integer
if all cells are integers, no group is empty, and no result on the way is too large. -/
theorem evaluate_exact {scope : Scope} {e : Expr} (he : scope.Throughout Expr.Arithmetic e)
    (hcount : scope.Countable) (row : Row) :
    (∀ k, scope.evaluate e row = .ok (.integer k) →
      ∀ z, scope.Exact (fun _ => True) e row z ↔ z = k.toInt) ∧
    (scope.Integral e row → (∃ z, scope.Exact (fun _ => True) e row z) ∧
      ∀ z, scope.Exact Fits e row z →
        ∃ k, scope.evaluate e row = .ok (.integer k) ∧ k.toInt = z) := by
  refine ⟨fun k hk z => ?_, fun hcells => ⟨hcells.exact he, fun z hz => ?_⟩⟩
  · have hexact := Scope.exact_of_evaluateIn hcount he hk
    constructor
    · intro hz
      exact hz.unique hexact
    · rintro rfl
      exact hexact
  · obtain ⟨v, hv⟩ := hcells.evaluates he (Scope.route_of_grounded hcells.grounded)
    obtain ⟨k, rfl, hk⟩ := Scope.integer_of_exact hcount hz hcells hv
    exact ⟨k, hv, hk⟩

/-- Two rows, and an alias for the sum of a column. -/
def tally : Scope where
  columns := ["t.a", "t.b"]
  aliases := [⟨.aggregate "SUM" (.column "a"), some "total"⟩]
  group := some [[.integer 3, .text "p"], [.integer 5, .null]]

/-- The integer in the first cell. -/
def firstInteger : Row → Int
  | .integer k :: _ => k.toInt
  | _ => 0

theorem evaluate_exact_tally :
    tally.Throughout Expr.Arithmetic (.binary .sub (.binary .mul (.column "a") (.column "total"))
        (.aggregate "count" (.column "*"))) ∧
      tally.Countable ∧
      (∀ z, tally.Exact (fun _ => True) (.binary .sub (.binary .mul (.column "a")
        (.column "total")) (.aggregate "count" (.column "*"))) [.integer 3, .text "p"] z ↔
          z = 22) ∧
      ∃ k, tally.evaluate (.binary .sub (.binary .mul (.column "a") (.column "total"))
        (.aggregate "count" (.column "*"))) [.integer 3, .text "p"] = .ok (.integer k) ∧
          k.toInt = 22 := by
  have hlower : "SUM".toLower = "sum" := by decide +kernel
  have hlower' : "count".toLower = "count" := by decide +kernel
  have hthroughout : tally.Throughout Expr.Arithmetic (.binary .sub (.binary .mul (.column "a")
      (.column "total")) (.aggregate "count" (.column "*"))) := by
    refine Scope.throughout_of_entries ⟨rfl, ⟨rfl, trivial, trivial⟩, .inr hlower', trivial⟩ ?_
    intro entry hentry
    obtain rfl := List.mem_singleton.mp hentry
    exact ⟨.inl hlower, trivial⟩
  have hcount : tally.Countable := by
    rintro rows ⟨⟩
    decide
  have hcells : tally.Integral (.binary .sub (.binary .mul (.column "a") (.column "total"))
      (.aggregate "count" (.column "*"))) [.integer 3, .text "p"] := by
    refine .operation (.operation (.cell rfl rfl rfl) (.followed rfl rfl
      (.aggregate rfl (by simp) (Scope.countsRows_of_sum hlower) ?_)))
      (.counted rfl (by simp) (by decide +kernel))
    simp only [List.forall_mem_cons]
    exact ⟨.cell rfl rfl rfl, .cell rfl rfl rfl, by simp⟩
  have hsum : tally.Exact Fits (.aggregate "SUM" (.column "a")) [.integer 3, .text "p"]
      (([[.integer 3, .text "p"], [.integer 5, .null]].map firstInteger).sum) := by
    refine .sum hlower rfl ?_ fun i => ?_
    · simp only [List.forall_mem_cons]
      exact ⟨.cell rfl rfl rfl, .cell rfl rfl rfl, by simp⟩
    · match i with
      | 0 => decide
      | 1 => decide
      | _ + 2 =>
        rw [List.take_of_length_le (by simp)]
        decide
  have hcounted : tally.Exact Fits (.aggregate "count" (.column "*")) [.integer 3, .text "p"]
      ([[.integer 3, .text "p"], [.integer 5, .null]] : List Row).length := .count hlower' rfl
  have hfits : tally.Exact Fits (.binary .sub (.binary .mul (.column "a") (.column "total"))
      (.aggregate "count" (.column "*"))) [.integer 3, .text "p"] (3 * 8 - 2) :=
    .operation rfl (.operation rfl (.cell (k := 3) rfl rfl rfl) (.followed rfl rfl hsum)
      (by decide)) hcounted (by decide)
  obtain ⟨hexact, hinteger⟩ := evaluate_exact hthroughout hcount [.integer 3, .text "p"]
  obtain ⟨k, hk, h22⟩ := (hinteger hcells).2 22 hfits
  exact ⟨hthroughout, hcount, fun z => by rw [hexact k hk z, h22], k, hk, h22⟩

end QueryTrace

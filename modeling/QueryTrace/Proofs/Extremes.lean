/-
The greatest and the least value.

`max` and `min` go through the values from the first one on and keep the best so far.  They start
with null, which is also the value of rows that have none, and a value takes the place of another
only if it is truly better.  This file shows that they find an extreme wherever the nulls are, and
so the same one in every order of the rows.

* `Value.AtMost` — the order of integers, of texts and of booleans, and `Value.compare_of_kind`: the
  comparison of values follows it;
* `IsExtreme` — what the greatest and the least value are: `IsExtreme.step` goes on by one value,
  and `isExtreme_extreme` through all of them;
* `IsExtreme.unique` — it is determined by which values there are;
* `evaluateIn_regrouped` — the order of the group matters to no expression whose only aggregates are
  counts;
* **`evaluate_extreme`** — all of this for `max` and `min` of a group.

Design notes: the rows of a group are also those of the aggregates in the argument.  A sum of texts
joins them in the order of the rows, so an order may change the values themselves
(`evaluate_extreme_joinedNames`).
-/
import Mathlib.Data.String.Basic
import QueryTrace.Proofs.References

namespace QueryTrace

/-! ### Kinds of values and their orders -/

/-- The kinds of values that have an order each. -/
inductive Kind where
  | integer
  | text
  | boolean

namespace Value

/-- The kind of a value.  Null is of none, nor are reals. -/
def kind? : Value → Option Kind
  | integer _ => some .integer
  | text _ => some .text
  | boolean _ => some .boolean
  | _ => none

/-- The order of the values of each kind. -/
inductive AtMost : Value → Value → Prop where
  | integer {m n : Int64} (h : m.toInt ≤ n.toInt) : AtMost (integer m) (integer n)
  | text {s t : String} (h : s ≤ t) : AtMost (text s) (text t)
  | boolean {p q : Bool} (h : p ≤ q) : AtMost (boolean p) (boolean q)

section Orders

variable {a b c : Value}

theorem AtMost.trans (h : AtMost a b) (h' : AtMost b c) : AtMost a c := by
  cases h with
  | integer h =>
    cases h' with
    | integer h' => exact .integer (Int.le_trans h h')
  | text h =>
    cases h' with
    | text h' => exact .text (String.le_trans h h')
  | boolean h =>
    cases h' with
    | boolean h' => exact .boolean (Bool.le_trans h h')

theorem AtMost.antisymm (h : AtMost a b) (h' : AtMost b a) : a = b := by
  cases h with
  | integer h =>
    cases h' with
    | integer h' => rw [Int64.toInt_inj.mp (Int.le_antisymm h h')]
  | text h =>
    cases h' with
    | text h' => rw [String.le_antisymm h h']
  | boolean h =>
    cases h' with
    | boolean h' => rw [Bool.le_antisymm h h']

theorem atMost_integer {m n : Int64} : AtMost (integer m) (integer n) ↔ m.toInt ≤ n.toInt :=
  ⟨fun h => by cases h; assumption, .integer⟩

theorem atMost_text {s t : String} : AtMost (text s) (text t) ↔ s ≤ t :=
  ⟨fun h => by cases h; assumption, .text⟩

theorem atMost_boolean {p q : Bool} : AtMost (boolean p) (boolean q) ↔ p ≤ q :=
  ⟨fun h => by cases h; assumption, .boolean⟩

/-- Values of one kind are compared in their order. -/
theorem compare_of_kind {kind : Kind} (ha : a.kind? = some kind) (hb : b.kind? = some kind) :
    (a.compare b = some .gt ↔ ¬ AtMost a b) ∧ (a.compare b = some .lt ↔ ¬ AtMost b a) ∧
      (AtMost a b ∨ AtMost b a) := by
  cases a with
  | null | real => cases ha
  | integer m =>
    cases ha
    cases b with
    | integer n =>
      rw [compare, atMost_integer, atMost_integer, Int.not_le, Int.not_le, Option.some_inj,
        Option.some_inj]
      exact ⟨Std.compare_eq_gt, Std.compare_eq_lt, Int.le_total _ _⟩
    | null | real | text | boolean => cases hb
  | text s =>
    cases ha
    cases b with
    | text t =>
      rw [compare, atMost_text, atMost_text, not_le, not_le, Option.some_inj, Option.some_inj]
      exact ⟨compare_gt_iff_gt, compare_lt_iff_lt, String.le_total _ _⟩
    | null | real | integer | boolean => cases hb
  | boolean p =>
    cases ha
    cases b with
    | boolean q =>
      rw [compare, atMost_boolean, atMost_boolean, Option.some_inj, Option.some_inj]
      clear hb
      revert p q
      decide
    | null | real | integer | text => cases hb

end Orders

end Value

/-! ### Extremes -/

/-- Is it the best of the values?  It is null only if all of them are; otherwise it is one of them,
and all of them but nulls are behind it. -/
structure IsExtreme (Behind : Value → Value → Prop) (values : List Value) (best : Value) :
    Prop where
  null_iff : best = .null ↔ ∀ v ∈ values, v = .null
  mem : best ≠ .null → best ∈ values
  ahead : best ≠ .null → ∀ v ∈ values, v ≠ .null → Behind v best

/-- A way to order the values of a kind, by the outcome of a comparison that is wanted. -/
structure Ranks (kind : Kind) (wanted : Ordering) (Behind : Value → Value → Prop) : Prop where
  wins_iff : ∀ {v w : Value}, v.kind? = some kind → w.kind? = some kind →
    (v.compare w = some wanted ↔ ¬ Behind v w)
  total : ∀ {v w : Value}, v.kind? = some kind → w.kind? = some kind → Behind v w ∨ Behind w v
  trans : ∀ {u v w : Value}, Behind u v → Behind v w → Behind u w
  antisymm : ∀ {v w : Value}, Behind v w → Behind w v → v = w

theorem ranks_greatest (kind : Kind) : Ranks kind .gt Value.AtMost where
  wins_iff hv hw := (Value.compare_of_kind hv hw).1
  total hv hw := (Value.compare_of_kind hv hw).2.2
  trans := Value.AtMost.trans
  antisymm := Value.AtMost.antisymm

theorem ranks_least (kind : Kind) : Ranks kind .lt (flip Value.AtMost) where
  wins_iff hv hw := (Value.compare_of_kind hv hw).2.1
  total hv hw := (Value.compare_of_kind hw hv).2.2
  trans h h' := Value.AtMost.trans h' h
  antisymm h h' := Value.AtMost.antisymm h' h

section Extremes

variable {kind : Kind} {wanted : Ordering} {Behind : Value → Value → Prop}
  {values values' : List Value} {best best' v : Value}

theorem Ranks.refl (hR : Ranks kind wanted Behind) (hv : v.kind? = some kind) : Behind v v :=
  (hR.total hv hv).elim id id

theorem better_null (wanted : Ordering) (best : Value) :
    Aggregate.better wanted best .null = best := by
  cases best <;> rfl

theorem better_of_null (wanted : Ordering) (v : Value) :
    Aggregate.better wanted .null v = v := rfl

theorem better_of_wins (h : v.compare best = some wanted) :
    Aggregate.better wanted best v = v := by
  rw [Aggregate.better, h, beq_self_eq_true, Bool.or_true, if_pos rfl]

theorem better_of_not_wins (hbest : best ≠ .null) (h : v.compare best ≠ some wanted) :
    Aggregate.better wanted best v = best := by
  have hnull : best.isNull = false := by
    cases best with
    | null => exact absurd rfl hbest
    | integer | real | text | boolean => rfl
  rw [Aggregate.better, hnull, beq_eq_false_iff_ne.mpr h]
  rfl

theorem isExtreme_of_ne_null (hne : best ≠ .null) (hmem : best ∈ values)
    (h : ∀ w ∈ values, w ≠ .null → Behind w best) : IsExtreme Behind values best where
  null_iff := iff_of_false hne fun hall => hne (hall best hmem)
  mem _ := hmem
  ahead _ := h

theorem forall_mem_concat {P : Value → Prop} :
    (∀ w ∈ values ++ [v], P w) ↔ (∀ w ∈ values, P w) ∧ P v := by
  rw [List.forall_mem_append, List.forall_mem_singleton]

/-- Null is passed over. -/
theorem IsExtreme.step_null (h : IsExtreme Behind values best) :
    IsExtreme Behind (values ++ [.null]) best where
  null_iff := by
    rw [h.null_iff, forall_mem_concat, and_iff_left rfl]
  mem hbest := List.mem_append_left _ (h.mem hbest)
  ahead hbest := forall_mem_concat.mpr ⟨h.ahead hbest, fun hne => absurd rfl hne⟩

/-- **The best so far goes on to be the best**, with one more value. -/
theorem IsExtreme.step (hR : Ranks kind wanted Behind) (h : IsExtreme Behind values best)
    (hvalues : ∀ w ∈ values, w = .null ∨ w.kind? = some kind)
    (hv : v = .null ∨ v.kind? = some kind) :
    IsExtreme Behind (values ++ [v]) (Aggregate.better wanted best v) := by
  rcases hv with rfl | hv
  · rw [better_null]
    exact h.step_null
  · have hvne : v ≠ .null := by
      rintro rfl
      cases hv
    have hlast : v ∈ values ++ [v] := by simp
    by_cases hbest : best = .null
    · -- the first value that is not null
      have hall := h.null_iff.mp hbest
      rw [hbest, better_of_null]
      exact isExtreme_of_ne_null hvne hlast (forall_mem_concat.mpr
        ⟨fun w hw hne => absurd (hall w hw) hne, fun _ => hR.refl hv⟩)
    · have hkind : best.kind? = some kind := (hvalues best (h.mem hbest)).resolve_left hbest
      by_cases hwins : v.compare best = some wanted
      · have hbehind : Behind best v :=
          (hR.total hkind hv).resolve_right ((hR.wins_iff hv hkind).mp hwins)
        rw [better_of_wins hwins]
        exact isExtreme_of_ne_null hvne hlast (forall_mem_concat.mpr
          ⟨fun w hw hne => hR.trans (h.ahead hbest w hw hne) hbehind, fun _ => hR.refl hv⟩)
      · have hbehind : Behind v best := not_not.mp (mt (hR.wins_iff hv hkind).mpr hwins)
        rw [better_of_not_wins hbest hwins]
        exact isExtreme_of_ne_null hbest (List.mem_append_left _ (h.mem hbest))
          (forall_mem_concat.mpr ⟨h.ahead hbest, fun _ => hbehind⟩)

/-- **The best of all values is found**, wherever the nulls are. -/
theorem isExtreme_extreme (hR : Ranks kind wanted Behind)
    (hvalues : ∀ v ∈ values, v = .null ∨ v.kind? = some kind) :
    IsExtreme Behind values (Aggregate.extreme wanted values) := by
  induction values using List.reverseRecOn with
  | nil => exact ⟨by simp [Aggregate.extreme], fun h => absurd rfl h, fun h => absurd rfl h⟩
  | append_singleton values v ih =>
    rw [forall_mem_concat] at hvalues
    rw [Aggregate.extreme, List.foldl_concat]
    exact (ih hvalues.1).step hR hvalues.1 hvalues.2

/-- It matters only which values there are. -/
theorem IsExtreme.unique (hR : Ranks kind wanted Behind) (h : IsExtreme Behind values best)
    (h' : IsExtreme Behind values' best') (hmem : ∀ v, v ∈ values' ↔ v ∈ values) :
    best' = best := by
  have hnull : best' = .null ↔ best = .null := by
    rw [h.null_iff, h'.null_iff]
    simp only [hmem]
  by_cases hbest : best = .null
  · rw [hbest, hnull.mpr hbest]
  · have hbest' := mt hnull.mp hbest
    exact hR.antisymm (h.ahead hbest best' ((hmem _).mp (h'.mem hbest')) hbest')
      (h'.ahead hbest' best ((hmem _).mpr (h.mem hbest)) hbest)

end Extremes

/-! ### Groups in another order -/

/-- Are all aggregates in the expression counts? -/
def Expr.CountsOnly : Expr → Prop
  | aggregate function argument => function.toLower = "count" ∧ argument.CountsOnly
  | binary _ l r => l.CountsOnly ∧ r.CountsOnly
  | _ => True

namespace Scope

/-- The same scope with other rows in the group. -/
def regrouped (scope : Scope) (rows : List Row) : Scope :=
  { scope with group := some rows }

variable {scope : Scope} {rows rows' : List Row}

/-- **The order of the rows does not matter to counts**, nor to what is made of them. -/
theorem evaluateIn_regrouped (hg : scope.group = some rows) (hperm : rows'.Perm rows) {steps : Nat}
    {e : Expr} (he : scope.Throughout Expr.CountsOnly e) {row : Row} {v : Value}
    (h : scope.evaluateIn steps e row = .ok v) :
    (scope.regrouped rows').evaluateIn steps e row = .ok v := by
  have hg' : (scope.regrouped rows').group = some rows' := rfl
  induction steps, e using scope.evaluation_induction generalizing row v with
  | number | text => exact h
  | reference steps e n hn ih =>
    rcases evaluateIn_reference_cases hn h with ⟨i, hi, hv⟩ | ⟨left, d, rfl, hs, h⟩
    · have hi' : columnIndex? (scope.regrouped rows').columns n = some i := hi
      rw [evaluateIn_cell hn hi', cell, hv]
    · have hs' : (scope.regrouped rows').standsFor? n = some d := hs
      rw [evaluateIn_alias hn hs']
      exact ih left d rfl hs (he.follow ((refers_reference_iff hn).mpr hs)) h
  | aggregate steps function argument ih =>
    obtain ⟨hf, hargument⟩ := he.self
    cases hc : Aggregate.countsRows function.toLower argument with
    | true =>
      rw [evaluateIn_counted hg hc] at h
      rw [evaluateIn_counted hg' hc, hperm.length_eq, h]
    | false =>
      have hpart := he.part hargument fun n hn => by rwa [Expr.asked_aggregate hc]
      rw [evaluateIn_aggregate hg hc, except_bind_eq_ok] at h
      obtain ⟨values, hvalues, hv⟩ := h
      -- the values may be in another order, but there are as many
      have heach : ∀ r ∈ rows',
          ∃ w, (scope.regrouped rows').evaluateIn steps argument r = .ok w := by
        intro r hr
        obtain ⟨w, hw⟩ := Trace.exists_mapM_eq_ok_iff.mp ⟨values, hvalues⟩ r (hperm.mem_iff.mp hr)
        exact ⟨w, ih hpart hw⟩
      obtain ⟨values', hvalues'⟩ := Trace.exists_mapM_eq_ok_iff.mpr heach
      rw [evaluateIn_aggregate hg' hc, hvalues', except_ok_bind, hf]
      rw [hf] at hv
      cases hv
      have hlength : values'.length = values.length := by
        rw [mapM_length hvalues', mapM_length hvalues, hperm.length_eq]
      rw [Aggregate.count, ← hlength]
      rfl
  | binary steps op l r ihl ihr =>
    obtain ⟨hl, hr⟩ := he.self
    obtain ⟨a, b, ha, hb, h⟩ := evaluateIn_binary_eq_ok.mp h
    have ha' := ihl (he.part hl fun n hn => List.mem_append_left _ hn) ha
    have hb' := ihr (he.part hr fun n hn => List.mem_append_right _ hn) hb
    exact evaluateIn_binary_eq_ok.mpr ⟨a, b, ha', hb', h⟩

end Scope

/-! ### The greatest and the least value of a group -/

/-- The names of the two aggregates, with the comparison that each wants and its order. -/
inductive Seeks : String → Ordering → (Value → Value → Prop) → Prop where
  | greatest : Seeks "max" .gt Value.AtMost
  | least : Seeks "min" .lt (flip Value.AtMost)

section Groups

variable {scope : Scope} {rows : List Row} {argument : Expr} {function : String}
  {wanted : Ordering} {Behind : Value → Value → Prop} {value : Row → Value}

theorem Seeks.ranks (h : Seeks function wanted Behind) (kind : Kind) :
    Ranks kind wanted Behind := by
  cases h with
  | greatest => exact ranks_greatest kind
  | least => exact ranks_least kind

theorem Seeks.apply (h : Seeks function wanted Behind) (values : List Value) :
    Aggregate.apply function values = .ok (Aggregate.extreme wanted values) := by
  cases h <;> rfl

theorem Seeks.countsRows (h : Seeks function wanted Behind) :
    Aggregate.countsRows function argument = false := by
  cases h <;> rfl

/-- The extreme of the values on the rows of the group. -/
theorem evaluate_seeks (hf : Seeks function.toLower wanted Behind) (hg : scope.group = some rows)
    (hvalue : ∀ r ∈ rows, scope.evaluate argument r = .ok (value r)) (row : Row) :
    scope.evaluate (.aggregate function argument) row =
      .ok (Aggregate.extreme wanted (rows.map value)) := by
  have hvalues : rows.mapM (scope.evaluateIn scope.aliases.length argument) =
      .ok (rows.map value) := by
    rw [Trace.mapM_eq_ok_iff, List.forall₂_map_right_iff, List.forall₂_same]
    exact hvalue
  rw [Scope.evaluate_eq_evaluateIn, Scope.evaluateIn_aggregate hg hf.countsRows, hvalues,
    except_ok_bind, hf.apply]

/-- **`max` and `min` find the extreme.**  Where each value is null or of one kind, the result is
null if and only if there is nothing else, and otherwise it is one of the values, and none is ahead
of it.  It is the same for the rows in any order in which the argument has the same values, and so
in every order if the argument leads to no aggregates but counts. -/
theorem evaluate_extreme {kind : Kind} (hf : Seeks function.toLower wanted Behind)
    (hg : scope.group = some rows)
    (hvalue : ∀ r ∈ rows, scope.evaluate argument r = .ok (value r))
    (hkind : ∀ r ∈ rows, value r = .null ∨ (value r).kind? = some kind) (row : Row) :
    ∃ best, scope.evaluate (.aggregate function argument) row = .ok best ∧
      IsExtreme Behind (rows.map value) best ∧
      ∀ rows', rows'.Perm rows →
        ((∀ r ∈ rows, (scope.regrouped rows').evaluate argument r = scope.evaluate argument r) ∨
          scope.Throughout Expr.CountsOnly argument) →
        (scope.regrouped rows').evaluate (.aggregate function argument) row = .ok best := by
  have hR := hf.ranks kind
  have hkinds : ∀ v ∈ rows.map value, v = .null ∨ v.kind? = some kind :=
    List.forall_mem_map.mpr hkind
  have hextreme := isExtreme_extreme hR hkinds
  refine ⟨_, evaluate_seeks hf hg hvalue row, hextreme, fun rows' hperm hsame => ?_⟩
  have hvalue' : ∀ r ∈ rows', (scope.regrouped rows').evaluate argument r = .ok (value r) := by
    intro r hr
    have hr := hperm.mem_iff.mp hr
    rcases hsame with hsame | hcounts
    · rw [hsame r hr, hvalue r hr]
    · exact Scope.evaluateIn_regrouped hg hperm hcounts (hvalue r hr)
  have hmem : ∀ v, v ∈ rows'.map value ↔ v ∈ rows.map value := fun v => (hperm.map value).mem_iff
  have hkinds' : ∀ v ∈ rows'.map value, v = .null ∨ v.kind? = some kind :=
    fun v hv => hkinds v ((hmem v).mp hv)
  rw [evaluate_seeks hf rfl hvalue' row, hextreme.unique hR (isExtreme_extreme hR hkinds') hmem]

end Groups

/-- A table with a column of names, and the rows of a group. -/
def named (rows : List Row) : Scope where
  columns := ["t.name"]
  group := some rows

/-- Rows with a name, some more than once, and rows without one. -/
def someNames : List Row :=
  [[.null], [.text "b"], [.null], [.text "c"], [.text "c"], [.text "a"], [.null]]

theorem evaluate_extreme_named :
    IsExtreme Value.AtMost (someNames.map fun r => r.headD .null) (.text "c") ∧
      ∀ rows, rows.Perm someNames →
        (named rows).evaluate (.aggregate "MAX" (.column "name")) [] = .ok (.text "c") := by
  have hf : Seeks "MAX".toLower .gt Value.AtMost := by
    have hlower : "MAX".toLower = "max" := by decide +kernel
    rw [hlower]
    exact .greatest
  have hvalue : ∀ r ∈ someNames,
      (named someNames).evaluate (.column "name") r = .ok (r.headD .null) := by
    simp only [someNames, List.forall_mem_cons]
    exact ⟨rfl, rfl, rfl, rfl, rfl, rfl, rfl, by simp⟩
  have hkind : ∀ r ∈ someNames,
      r.headD .null = .null ∨ (r.headD .null).kind? = some .text := by
    simp [someNames, Value.kind?]
  have hcounts : (named someNames).Throughout Expr.CountsOnly (.column "name") :=
    Scope.throughout_of_entries trivial fun entry hentry => by cases hentry
  have hgreatest : IsExtreme Value.AtMost (someNames.map fun r => r.headD .null) (.text "c") := by
    refine isExtreme_of_ne_null nofun (by simp [someNames]) ?_
    simp only [someNames, List.map_cons, List.forall_mem_cons, List.headD_cons]
    exact ⟨fun h => absurd rfl h, fun _ => .text (by decide), fun h => absurd rfl h,
      fun _ => .text (by decide), fun _ => .text (by decide), fun _ => .text (by decide),
      fun h => absurd rfl h, by simp⟩
  obtain ⟨best, -, hextreme, horder⟩ := evaluate_extreme hf rfl hvalue hkind []
  obtain rfl := hgreatest.unique (ranks_greatest .text) hextreme fun _ => Iff.rfl
  exact ⟨hextreme, fun rows hperm => horder rows hperm (.inr hcounts)⟩

/-- **An order of the rows that changes the values.**  The sum joins all the names, so the greatest
of its values is another one where the rows are in another order. -/
theorem evaluate_extreme_joinedNames :
    ([[.text "b"], [.text "a"]] : List Row).Perm [[.text "a"], [.text "b"]] ∧
      (∀ r ∈ [[.text "a"], [.text "b"]], (named [[.text "a"], [.text "b"]]).evaluate
        (.aggregate "sum" (.column "name")) r = .ok (.text "ab")) ∧
      (named [[.text "a"], [.text "b"]]).evaluate
        (.aggregate "max" (.aggregate "sum" (.column "name"))) [] = .ok (.text "ab") ∧
      (named [[.text "b"], [.text "a"]]).evaluate
        (.aggregate "max" (.aggregate "sum" (.column "name"))) [] = .ok (.text "ba") := by
  have hf : Seeks "max".toLower .gt Value.AtMost := by
    have hlower : "max".toLower = "max" := by decide +kernel
    rw [hlower]
    exact .greatest
  have hsum : ∀ s t r, (named [[.text s], [.text t]]).evaluate
      (.aggregate "sum" (.column "name")) r = .ok (.text (s ++ t)) := by
    intro s t r
    have hlower : "sum".toLower = "sum" := by decide +kernel
    have hcounts : Aggregate.countsRows "sum".toLower (.column "name") = false := by
      rw [hlower]
      rfl
    rw [Scope.evaluate_eq_evaluateIn, Scope.evaluateIn_aggregate rfl hcounts, hlower]
    rfl
  have hmax : ∀ s t, (named [[.text s], [.text t]]).evaluate
      (.aggregate "max" (.aggregate "sum" (.column "name"))) [] = .ok (.text (s ++ t)) := by
    intro s t
    have htwice : ∀ v, Aggregate.extreme .gt [v, v] = v := by
      intro v
      rw [Aggregate.extreme, List.foldl_cons, List.foldl_cons, List.foldl_nil, better_of_null]
      exact ite_self v
    rw [evaluate_seeks hf rfl (fun r _ => hsum s t r) []]
    exact congrArg Except.ok (htwice _)
  exact ⟨.swap _ _ _, fun r _ => hsum "a" "b" r, hmax "a" "b", hmax "b" "a"⟩

end QueryTrace

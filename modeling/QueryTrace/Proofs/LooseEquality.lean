/-
How far equality of values can be trusted.

Two integers are compared exactly, but an integer and a real are compared as reals, to which the
integer is rounded.  So a real may be equal to two integers that differ.  This file shows that
nothing else goes wrong: where there is no such real, equality is transitive, and values that are
equal are greater than the same values.

* `Value.place?` — the place of a number among the doubles, and `compare_of_isReal`: two numbers of
  which one is real are compared by their places;
* `looseEq_iff` — equal values are the same, or numbers in one place;
* `Merged m n x` — the real is equal to both integers, and `Merged.large`: both are large then;
* **`looseEq_coherent`** — equality is transitive, and goes with the order, but for merged integers.

Design notes: what is no number is equal to nothing and not less than anything, so it need not be
left out.
-/
import QueryTrace.Proofs.RoundedIntegers

namespace QueryTrace.Value

open Decimal (integerPlace placeOfFloat?)

/-- The place of a number among the doubles. -/
def place? (v : Value) : Option Int :=
  v.toFloat?.bind placeOfFloat?

theorem place?_integer (n : Int64) : (integer n).place? = some (integerPlace n.toInt) := by
  refine Decimal.placeOfFloat?_ofInt ?_
  have hlow := n.le_toInt
  have hhigh := n.toInt_lt
  show n.toInt.natAbs < 2 ^ 64
  omega

/-- Is the value a real? -/
def IsReal (v : Value) : Prop :=
  ∃ x, v = real x

section Comparison

variable {a b : Value}

theorem compare_of_isReal (h : a.IsReal ∨ b.IsReal) :
    a.compare b = a.place?.bind fun p => b.place?.map (Ord.compare p) := by
  have hfloats : a.compare b = a.toFloat?.bind fun x => b.toFloat?.bind (compareFloats x) := by
    rcases h with ⟨x, rfl⟩ | ⟨y, rfl⟩
    · cases b <;> rfl
    · cases a <;> rfl
  rw [hfloats, place?, place?]
  cases a.toFloat? with
  | none => rfl
  | some x =>
    cases b.toFloat? with
    | none => simp
    | some y => exact Decimal.compareFloats_eq x y

/-- Numbers of which one is real are less than each other by their places. -/
theorem compare_lt_iff (h : a.IsReal ∨ b.IsReal) :
    a.compare b = some .lt ↔ ∃ p q, a.place? = some p ∧ b.place? = some q ∧ p < q := by
  rw [compare_of_isReal h]
  constructor
  · intro hlt
    obtain ⟨p, hp, hlt⟩ := Option.bind_eq_some_iff.mp hlt
    obtain ⟨q, hq, hlt⟩ := Option.map_eq_some_iff.mp hlt
    exact ⟨p, q, hp, hq, Std.compare_eq_lt.mp hlt⟩
  · rintro ⟨p, q, hp, hq, hlt⟩
    rw [hp, hq, Option.bind_some, Option.map_some, Std.compare_eq_lt.mpr hlt]

/-- Numbers of which one is real are equal by their places. -/
theorem looseEq_iff_of_isReal (h : a.IsReal ∨ b.IsReal) :
    a.looseEq b = true ↔ ∃ p, a.place? = some p ∧ b.place? = some p := by
  have hnull : (a.isNull && b.isNull) = false := by
    rcases h with ⟨x, rfl⟩ | ⟨y, rfl⟩
    · rfl
    · exact Bool.and_false _
  rw [looseEq, hnull, Bool.false_or, beq_iff_eq, compare_of_isReal h]
  constructor
  · intro heq
    obtain ⟨p, hp, heq⟩ := Option.bind_eq_some_iff.mp heq
    obtain ⟨q, hq, heq⟩ := Option.map_eq_some_iff.mp heq
    obtain rfl : p = q := Std.LawfulEqCmp.eq_of_compare heq
    exact ⟨p, hp, hq⟩
  · rintro ⟨p, hp, hq⟩
    rw [hp, hq, Option.bind_some, Option.map_some, Std.compare_self]

/-- Values of which none is real are equal only if they are the same. -/
theorem looseEq_iff_of_not_isReal (h : ¬ (a.IsReal ∨ b.IsReal)) : a.looseEq b = true ↔ a = b := by
  have ha : ∀ x, a ≠ real x := fun x hx => h (.inl ⟨x, hx⟩)
  have hb : ∀ y, b ≠ real y := fun y hy => h (.inr ⟨y, hy⟩)
  cases a with
  | real x => exact absurd rfl (ha x)
  | null =>
    cases b with
    | real y => exact absurd rfl (hb y)
    | _ => simp [looseEq, isNull, compare_null]
  | integer m =>
    cases b with
    | real y => exact absurd rfl (hb y)
    | integer n => simp [looseEq, isNull, compare, Int64.toInt_inj]
    | _ => simp [looseEq, isNull, compare, toFloat?]
  | text s =>
    cases b with
    | real y => exact absurd rfl (hb y)
    | text t => simp [looseEq, isNull, compare]
    | _ => simp [looseEq, isNull, compare, toFloat?]
  | boolean p =>
    cases b with
    | real y => exact absurd rfl (hb y)
    | boolean q => simp [looseEq, isNull, compare]
    | _ => simp [looseEq, isNull, compare, toFloat?]

/-- **Equal values are the same, or numbers in one place.** -/
theorem looseEq_iff : a.looseEq b = true ↔ (¬ (a.IsReal ∨ b.IsReal) ∧ a = b) ∨
    ((a.IsReal ∨ b.IsReal) ∧ ∃ p, a.place? = some p ∧ b.place? = some p) := by
  by_cases h : a.IsReal ∨ b.IsReal
  · simp only [h, looseEq_iff_of_isReal h, not_true_eq_false, false_and, true_and, false_or]
  · simp only [h, looseEq_iff_of_not_isReal h, not_false_eq_true, false_and, true_and, or_false]

theorem exists_integer {p : Int} (h : a.place? = some p) (hreal : ¬ a.IsReal) :
    ∃ n, a = integer n ∧ integerPlace n.toInt = p := by
  cases a with
  | integer n =>
    rw [place?_integer] at h
    exact ⟨n, rfl, Option.some.inj h⟩
  | real x => exact absurd ⟨x, rfl⟩ hreal
  | null | text | boolean => cases h

theorem compare_integer_lt {m n : Int64} :
    (integer m).compare (integer n) = some .lt ↔ m.toInt < n.toInt := by
  rw [compare, Option.some_inj]
  exact Std.compare_eq_lt

theorem exists_integer_of_lt {n : Int64} (h : a.compare (integer n) = some .lt)
    (hreal : ¬ a.IsReal) : ∃ m, a = integer m ∧ m.toInt < n.toInt := by
  cases a with
  | integer m => exact ⟨m, rfl, compare_integer_lt.mp h⟩
  | real x => exact absurd ⟨x, rfl⟩ hreal
  | null | text | boolean => cases h

end Comparison

/-! ### Merged integers -/

/-- Are two different integers equal to the real? -/
structure Merged (m n : Int64) (x : Float) : Prop where
  ne : m ≠ n
  left : (integer m).looseEq (real x) = true
  right : (integer n).looseEq (real x) = true

section Merging

variable {m n : Int64} {x : Float}

theorem merged_iff (h : (real x).place? = some (integerPlace n.toInt)) :
    Merged m n x ↔ m ≠ n ∧ integerPlace m.toInt = integerPlace n.toInt := by
  have hequal : ∀ k : Int64, (integer k).looseEq (real x) = true ↔
      integerPlace k.toInt = integerPlace n.toInt := by
    intro k
    rw [looseEq_iff_of_isReal (.inr ⟨x, rfl⟩), place?_integer, h]
    constructor
    · rintro ⟨p, hk, hn⟩
      exact (Option.some.inj hk).trans (Option.some.inj hn).symm
    · intro heq
      exact ⟨_, rfl, congrArg some heq.symm⟩
  constructor
  · rintro ⟨hne, hm, -⟩
    exact ⟨hne, (hequal m).mp hm⟩
  · rintro ⟨hne, hm⟩
    exact ⟨hne, (hequal m).mpr hm, (hequal n).mpr rfl⟩

/-- Integers that merge are large. -/
theorem Merged.large (h : Merged m n x) :
    2 ^ 53 ≤ m.toInt.natAbs ∧ 2 ^ 53 ≤ n.toInt.natAbs := by
  obtain ⟨p, hn, hx⟩ := (looseEq_iff_of_isReal (.inr ⟨x, rfl⟩)).mp h.right
  rw [place?_integer] at hn
  rw [← hn] at hx
  obtain ⟨hne, hplace⟩ := (merged_iff hx).mp h
  rcases Decimal.eq_or_large_of_integerPlace_eq hplace with heq | hlarge
  · exact absurd (Int64.toInt_inj.mp heq) hne
  · exact hlarge

end Merging

/-! ### Equality and order -/

section Laws

variable {a b c : Value}

theorem looseEq_trans_iff (hab : a.looseEq b = true) (hbc : b.looseEq c = true) :
    a.looseEq c = true ↔
      ¬ ∃ m n x, a = integer m ∧ b = real x ∧ c = integer n ∧ Merged m n x := by
  rcases looseEq_iff.mp hab with ⟨hreal, rfl⟩ | ⟨hreal, p, ha, hb⟩
  · refine iff_of_true hbc ?_
    rintro ⟨m, n, x, rfl, hx, -⟩
    cases hx
  rcases looseEq_iff.mp hbc with ⟨hreal', rfl⟩ | ⟨hreal', q, hb', hc⟩
  · refine iff_of_true hab ?_
    rintro ⟨m, n, x, -, rfl, hx, -⟩
    cases hx
  obtain rfl : p = q := Option.some.inj (hb.symm.trans hb')
  by_cases hac : a.IsReal ∨ c.IsReal
  · refine iff_of_true ((looseEq_iff_of_isReal hac).mpr ⟨p, ha, hc⟩) ?_
    rintro ⟨m, n, x, rfl, -, rfl, -⟩
    rcases hac with ⟨_, h⟩ | ⟨_, h⟩ <;> cases h
  · -- a real between two integers
    obtain ⟨m, rfl, hm⟩ := exists_integer ha fun h => hac (.inl h)
    obtain ⟨n, rfl, hn⟩ := exists_integer hc fun h => hac (.inr h)
    obtain ⟨x, rfl⟩ : b.IsReal := hreal.resolve_left fun h => hac (.inl h)
    rw [← hn] at hb
    rw [looseEq_iff_of_not_isReal hac, integer.injEq]
    constructor
    · rintro rfl ⟨_, _, _, ⟨⟩, ⟨⟩, ⟨⟩, hmerged⟩
      exact hmerged.ne rfl
    · intro h
      refine Classical.byContradiction fun hne => ?_
      exact h ⟨m, n, x, rfl, rfl, rfl, (merged_iff hb).mpr ⟨hne, hm.trans hn.symm⟩⟩

theorem lt_of_lt_of_looseEq_iff (hab : a.compare b = some .lt) (hbc : b.looseEq c = true) :
    a.compare c = some .lt ↔
      ¬ ∃ m n x, a = integer m ∧ b = integer n ∧ c = real x ∧ Merged m n x := by
  rcases looseEq_iff.mp hbc with ⟨hreal, rfl⟩ | ⟨hreal, q, hb, hc⟩
  · refine iff_of_true hab ?_
    rintro ⟨m, n, x, -, rfl, hx, -⟩
    cases hx
  by_cases hreal' : a.IsReal ∨ b.IsReal
  · obtain ⟨p, q', ha, hb', hlt⟩ := (compare_lt_iff hreal').mp hab
    obtain rfl : q = q' := Option.some.inj (hb.symm.trans hb')
    refine iff_of_true ?_ ?_
    · by_cases hac : a.IsReal ∨ c.IsReal
      · exact (compare_lt_iff hac).mpr ⟨p, q, ha, hc, hlt⟩
      · obtain ⟨m, rfl, hm⟩ := exists_integer ha fun h => hac (.inl h)
        obtain ⟨n, rfl, hn⟩ := exists_integer hc fun h => hac (.inr h)
        refine compare_integer_lt.mpr (Int.not_le.mp fun hle => ?_)
        have hplace := Decimal.integerPlace_le hle
        omega
    · rintro ⟨m, n, x, rfl, rfl, -⟩
      rcases hreal' with ⟨_, h⟩ | ⟨_, h⟩ <;> cases h
  · -- two integers, and a real that is equal to the greater one
    obtain ⟨n, rfl, hn⟩ := exists_integer hb fun h => hreal' (.inr h)
    obtain ⟨m, rfl, hlt⟩ := exists_integer_of_lt hab fun h => hreal' (.inl h)
    obtain ⟨x, rfl⟩ : c.IsReal := hreal.resolve_left fun h => hreal' (.inr h)
    have hle := Decimal.integerPlace_le (Int.le_of_lt hlt)
    rw [← hn] at hc
    rw [compare_lt_iff (.inr ⟨x, rfl⟩), place?_integer, hc]
    constructor
    · rintro ⟨_, _, ⟨⟩, ⟨⟩, hplace⟩ ⟨_, _, _, ⟨⟩, ⟨⟩, ⟨⟩, hmerged⟩
      have heq := ((merged_iff hc).mp hmerged).2
      omega
    · intro h
      refine ⟨_, _, rfl, rfl, Int.lt_iff_le_and_ne.mpr ⟨hle, fun heq => ?_⟩⟩
      refine h ⟨m, n, x, rfl, rfl, rfl, (merged_iff hc).mpr ⟨?_, heq⟩⟩
      rintro rfl
      omega

end Laws

/-- **Equality is transitive and goes with the order**, but for merged integers, which are equal to
one real, and are large. -/
theorem looseEq_coherent (a b c : Value) :
    (a.looseEq b = true → b.looseEq c = true →
      (a.looseEq c = true ↔
        ¬ ∃ m n x, a = integer m ∧ b = real x ∧ c = integer n ∧ Merged m n x)) ∧
    (a.compare b = some .lt → b.looseEq c = true →
      (a.compare c = some .lt ↔
        ¬ ∃ m n x, a = integer m ∧ b = integer n ∧ c = real x ∧ Merged m n x)) ∧
    ∀ m n x, Merged m n x → 2 ^ 53 ≤ m.toInt.natAbs ∧ 2 ^ 53 ≤ n.toInt.natAbs := by
  refine ⟨looseEq_trans_iff, lt_of_lt_of_looseEq_iff, ?_⟩
  intro m n x h
  exact h.large

/-- The first two integers that become one real. -/
theorem merged_two_pow : Merged 9007199254740992 9007199254740993 9007199254740992 :=
  ⟨by decide, by decide +kernel, by decide +kernel⟩

/-- Laws that hold of two, three and `3.0`, and integers that merge. -/
theorem looseEq_coherent_three :
    ((integer 3).looseEq (real 3) = true ∧ (real 3).looseEq (integer 3) = true ∧
      ((integer 3).looseEq (integer 3) = true ↔ ¬ ∃ m n x, integer 3 = integer m ∧
        real 3 = real x ∧ integer 3 = integer n ∧ Merged m n x)) ∧
    ((integer 2).compare (real 3) = some .lt ∧
      ((integer 2).compare (integer 3) = some .lt ↔ ¬ ∃ m n x, integer 2 = integer m ∧
        real 3 = integer n ∧ integer 3 = real x ∧ Merged m n x)) ∧
    Merged 9007199254740992 9007199254740993 9007199254740992 ∧
      2 ^ 53 ≤ (9007199254740992 : Int64).toInt.natAbs ∧
      2 ^ 53 ≤ (9007199254740993 : Int64).toInt.natAbs := by
  have hleft : (integer 3).looseEq (real 3) = true := by decide +kernel
  have hright : (real 3).looseEq (integer 3) = true := by decide +kernel
  have hlt : (integer 2).compare (real 3) = some .lt := by decide +kernel
  have hequal := (looseEq_coherent (integer 3) (real 3) (integer 3)).1 hleft hright
  have hless := (looseEq_coherent (integer 2) (real 3) (integer 3)).2.1 hlt hright
  have hlarge := (looseEq_coherent .null .null .null).2.2 _ _ _ merged_two_pow
  exact ⟨⟨hleft, hright, hequal⟩, ⟨hlt, hless⟩, merged_two_pow, hlarge⟩

/-- Equality is not transitive, and does not go with the order, where integers merge. -/
theorem looseEq_not_transitive :
    ((integer 9007199254740992).looseEq (real 9007199254740992) = true ∧
      (real 9007199254740992).looseEq (integer 9007199254740993) = true ∧
      (integer 9007199254740992).looseEq (integer 9007199254740993) = false) ∧
    ((integer 9007199254740992).compare (integer 9007199254740993) = some .lt ∧
      (integer 9007199254740993).looseEq (real 9007199254740992) = true ∧
      (integer 9007199254740992).compare (real 9007199254740992) = some .eq) := by
  decide +kernel

end QueryTrace.Value

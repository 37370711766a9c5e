/-
The order of doubles.

Doubles are compared by their signs, their exponents and their mantissas.  All of it is in one
integer: where the double stands when all of them are counted from zero, upwards and downwards.

* `Canonical` — the numbers that doubles stand for, and `canonical_unpack`;
* `place?` — the place of a number, unless it is none: `compare_digits` for two mantissas with
  exponents, and `compare_eq` for all numbers;
* **`compareFloats_eq`** — doubles are compared by their places.

Design notes: the place of a positive double is what its bits spell.  It does not tell two zeros
apart, nor does the comparison.  A mantissa of 54 bits that is due to a carry has a place as well,
and it is the right one.
-/
import Mathlib.Algebra.Ring.Int.Defs
import QueryTrace.Proofs.FiniteReals

namespace QueryTrace.Decimal

open Float.Model (UnpackedFloat)
open Float.Model.UnpackedFloat

/-- Are these the mantissa and the exponent of a double? -/
structure IsDouble (m : Nat) (e : Int) : Prop where
  bits : m < 2 ^ 53
  low : -1074 ≤ e
  high : e ≤ 971
  /-- There are 53 bits, unless the exponent is the least one. -/
  implicit : 2 ^ 52 ≤ m ∨ e = -1074

/-- Is the number one that a double stands for? -/
inductive Canonical : UnpackedFloat → Prop where
  | notANumber : Canonical .notANumber
  | infinity (sign : Sign) : Canonical (.infinity sign)
  | zero (sign : Sign) : Canonical (.zero sign)
  | finite (sign : Sign) {m : Nat} {e : Int} (hm : 0 < m) (h : IsDouble m e) :
    Canonical (.finite sign m e hm)

theorem canonical_unpack (b : BitVec 64) : Canonical (unpack .binary64 b) := by
  have hfields := fromFields_unpack b
  generalize unpack .binary64 b = x at hfields ⊢
  cases hfields with
  | infinity sign => exact .infinity sign
  | notANumber => exact .notANumber
  | zero sign => exact .zero sign
  | subnormal sign _ hlt hm =>
    exact .finite sign hm ⟨by omega, Int.le_refl _, by decide, .inr rfl⟩
  | normal sign hones hzero hm =>
    have hlt := toNat_lt_of_ne_ones hones
    have hpos : (@unpackExponent .binary64 b).toNat ≠ 0 := by
      intro h
      exact hzero (BitVec.eq_of_toNat_eq h)
    refine .finite sign hm ⟨BitVec.isLt _, ?_, ?_, .inl (le_toNat_one_append _)⟩
    · omega
    · omega

/-! ### Places -/

/-- The place of the number `m · 2 ^ e`, counted from zero. -/
def placeOf (m : Nat) (e : Int) : Int :=
  (e + 1074) * 2 ^ 52 + m

/-- The place of a number among all that doubles stand for. -/
def place? : UnpackedFloat → Option Int
  | .notANumber => none
  | .infinity sign => some (sign.apply (placeOf (2 ^ 52) 972))
  | .zero _ => some 0
  | .finite sign m e _ => some (sign.apply (placeOf m e))

section Digits

variable {m m' : Nat} {e e' : Int}

/-- The exponent goes before the mantissa. -/
theorem placeOf_lt (h : IsDouble m e) (h' : IsDouble m' e') (he : e < e') :
    placeOf m e < placeOf m' e' := by
  have hbits := h.bits
  have hlow := h.low
  have himplicit := h'.implicit
  rw [placeOf, placeOf]
  omega

/-- **Mantissas and exponents are compared by their places.** -/
theorem compare_digits (h : IsDouble m e) (h' : IsDouble m' e') :
    (compare e e').then (compare m m') = compare (placeOf m e) (placeOf m' e') := by
  rcases Int.lt_trichotomy e e' with he | rfl | he
  · rw [Std.compare_eq_lt.mpr he, Std.compare_eq_lt.mpr (placeOf_lt h h' he), Ordering.lt_then]
  · rw [Std.compare_self, Ordering.eq_then]
    rcases Nat.lt_trichotomy m m' with hm | rfl | hm
    · rw [Std.compare_eq_lt.mpr hm, Std.compare_eq_lt.mpr (by rw [placeOf, placeOf]; omega)]
    · rw [Std.compare_self, Std.compare_self]
    · rw [Std.compare_eq_gt.mpr hm, Std.compare_eq_gt.mpr (by rw [placeOf, placeOf]; omega)]
  · rw [Std.compare_eq_gt.mpr he, Std.compare_eq_gt.mpr (placeOf_lt h' h he), Ordering.gt_then]

theorem placeOf_pos (hm : 0 < m) (h : IsDouble m e) : 0 < placeOf m e := by
  have hlow := h.low
  rw [placeOf]
  omega

theorem placeOf_lt_infinity (h : IsDouble m e) : placeOf m e < placeOf (2 ^ 52) 972 := by
  have hbits := h.bits
  have hhigh := h.high
  rw [placeOf, placeOf]
  omega

end Digits

theorem compare_neg (p q : Int) : compare (-p) (-q) = (compare p q).swap := by
  rcases Int.lt_trichotomy p q with h | rfl | h
  · rw [Std.compare_eq_lt.mpr h, Std.compare_eq_gt.mpr (Int.neg_lt_neg h), Ordering.swap_lt]
  · rw [Std.compare_self, Std.compare_self, Ordering.swap_eq]
  · rw [Std.compare_eq_gt.mpr h, Std.compare_eq_lt.mpr (Int.neg_lt_neg h), Ordering.swap_gt]

/-- **Numbers are compared by their places.** -/
theorem compare_eq {x y : UnpackedFloat} (hx : Canonical x) (hy : Canonical y) :
    x.compare y = (place? x).bind fun p => (place? y).map (compare p) := by
  have hlt : ∀ {p q : Int}, p < q → some .lt = some (compare p q) := by
    intro p q h
    rw [Std.compare_eq_lt.mpr h]
  have hgt : ∀ {p q : Int}, q < p → some .gt = some (compare p q) := by
    intro p q h
    rw [Std.compare_eq_gt.mpr h]
  cases hx with
  | notANumber => rfl
  | infinity s =>
    cases hy with
    | notANumber => cases s <;> rfl
    | infinity s' => cases s <;> cases s' <;> rfl
    | zero => cases s <;> rfl
    | finite s' hm h =>
      have hpos := placeOf_pos hm h
      have hinfinity := placeOf_lt_infinity h
      cases s with
      | negative => exact hlt (by cases s' <;> simp only [Sign.apply] <;> omega)
      | positive => exact hgt (by cases s' <;> simp only [Sign.apply] <;> omega)
  | zero s =>
    cases hy with
    | notANumber => rfl
    | infinity s' => cases s' <;> rfl
    | zero => rfl
    | finite s' hm h =>
      have hpos := placeOf_pos hm h
      cases s' with
      | negative => exact hgt (by simp only [Sign.apply]; omega)
      | positive => exact hlt hpos
  | finite s hm h =>
    have hpos := placeOf_pos hm h
    cases hy with
    | notANumber => cases s <;> rfl
    | infinity s' =>
      have hinfinity := placeOf_lt_infinity h
      cases s' with
      | negative => cases s <;> exact hgt (by simp only [Sign.apply]; omega)
      | positive => cases s <;> exact hlt (by simp only [Sign.apply]; omega)
    | zero =>
      cases s with
      | negative => exact hlt (by simp only [Sign.apply]; omega)
      | positive => exact hgt hpos
    | finite s' hm' h' =>
      have hpos' := placeOf_pos hm' h'
      cases s with
      | negative =>
        cases s' with
        | negative =>
          show some ((compare _ _).then _).swap = some (compare (-_) (-_))
          rw [compare_digits h h', compare_neg]
        | positive => exact hlt (by simp only [Sign.apply]; omega)
      | positive =>
        cases s' with
        | negative => exact hgt (by simp only [Sign.apply]; omega)
        | positive => exact congrArg some (compare_digits h h')

/-! ### Doubles -/

/-- The place of a double, unless it is no number. -/
def placeOfFloat? (x : Float) : Option Int :=
  place? x.toModel.unpack

theorem compare_unpack (x y : Float) :
    x.toModel.unpack.compare y.toModel.unpack =
      (placeOfFloat? x).bind fun p => (placeOfFloat? y).map (compare p) :=
  compare_eq (canonical_unpack _) (canonical_unpack _)

theorem lt_iff (x y : Float) : x < y ↔ x.toModel.unpack.compare y.toModel.unpack = some .lt := by
  show decide (UnpackedFloat.lt _ _ = true) = true ↔ _
  rw [decide_eq_true_iff]
  exact beq_iff_eq

theorem beq_iff (x y : Float) :
    (x == y) = true ↔ x.toModel.unpack.compare y.toModel.unpack = some .eq := by
  show UnpackedFloat.beq _ _ = true ↔ _
  exact beq_iff_eq

/-- **Doubles are compared by their places.** -/
theorem compareFloats_eq (x y : Float) :
    Value.compareFloats x y =
      (placeOfFloat? x).bind fun p => (placeOfFloat? y).map (compare p) := by
  simp only [Value.compareFloats, lt_iff, beq_iff, compare_unpack]
  cases placeOfFloat? x with
  | none => cases placeOfFloat? y <;> rfl
  | some p =>
    cases placeOfFloat? y with
    | none => rfl
    | some q =>
      simp only [Option.bind_some, Option.map_some]
      rcases Int.lt_trichotomy p q with h | rfl | h
      · simp [Std.compare_eq_lt.mpr h]
      · simp
      · simp [Std.compare_eq_gt.mpr h, Std.compare_eq_lt.mpr h]

end QueryTrace.Decimal

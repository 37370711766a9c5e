/-
Every number that is read is finite.

A number that is too large for a double is not read at all, and nothing on the way to a double can
leave the finite ones: integers of 64 bits are far from the largest double, a quotient by a power
of ten is smaller than what was divided, and a product is looked at before it is handed out.

* `Bounded top x` — the number `x` is finite, and its exponent is not above `top`;
* `bounded_round` — rounding to 53 bits raises an exponent no further than the bits demand;
* `FromFields` — the numbers that the fields of a double stand for, and `bounded_unpack_pack` —
  the fields keep the bound;
* `tenTo_large` — powers of ten are large: infinite, or not below eight;
* **`isFinite_of_real?`** — a number that is read is finite;
* `isFinite_iff_finite` — finite doubles are those with digits.

Design notes: doubles are sixty-four bits, and arithmetic takes the bits apart into `± m · 2 ^ e`,
computes, rounds and puts them together again.  What is shown here are bounds of the exponent
only, and never the value of a result; the largest exponent is 971.  Division is by a power of ten
between `10 ^ 1` and `10 ^ 308`, and what is needed of these is a bound from below.  That they are
finite is true and not needed: what is divided by infinity is zero.  The first of them stand in a
table and are evaluated; the others are rounded from their digits.
-/
import Mathlib.Algebra.Group.Nat.Defs
import QueryTrace.Json.Model

namespace QueryTrace.Decimal

open Float.Model (UnpackedFloat totalExponent)
open Float.Model.UnpackedFloat

/-- Is the number finite, with an exponent up to a bound? -/
inductive Bounded (top : Int) : UnpackedFloat → Prop where
  | zero (sign : Sign) : Bounded top (.zero sign)
  | finite (sign : Sign) {m : Nat} {e : Int} (hm : 0 < m) (h : e ≤ top) :
    Bounded top (.finite sign m e hm)

theorem bounded_iff {top : Int} {x : UnpackedFloat} :
    Bounded top x ↔
      (∃ sign, x = .zero sign) ∨ ∃ sign m e hm, x = .finite sign m e hm ∧ e ≤ top := by
  constructor
  · rintro (⟨sign⟩ | ⟨sign, hm, h⟩)
    · exact .inl ⟨sign, rfl⟩
    · exact .inr ⟨sign, _, _, hm, rfl, h⟩
  · rintro (⟨sign, rfl⟩ | ⟨sign, m, e, hm, rfl, h⟩)
    · exact .zero sign
    · exact .finite sign hm h

theorem Bounded.mono {top top' : Int} (h : top ≤ top') {x : UnpackedFloat} (hx : Bounded top x) :
    Bounded top' x := by
  cases hx with
  | zero sign => exact .zero sign
  | finite sign hm he => exact .finite sign hm (Int.le_trans he h)

/-- Is the number infinite or not below eight? -/
inductive Large : UnpackedFloat → Prop where
  | infinite (sign : Sign) : Large (.infinity sign)
  | finite (sign : Sign) {m : Nat} {e : Int} (hm : 0 < m) (h : 4 ≤ totalExponent m e) :
    Large (.finite sign m e hm)

instance (top : Int) : (x : UnpackedFloat) → Decidable (Bounded top x)
  | .zero sign => .isTrue (.zero sign)
  | .finite sign _ e hm =>
    decidable_of_iff (e ≤ top) ⟨.finite sign hm, fun | .finite _ _ h => h⟩
  | .infinity _ => .isFalse nofun
  | .notANumber => .isFalse nofun

instance : (x : UnpackedFloat) → Decidable (Large x)
  | .zero _ => .isFalse nofun
  | .finite sign m e hm =>
    decidable_of_iff (4 ≤ totalExponent m e) ⟨.finite sign hm, fun | .finite _ _ h => h⟩
  | .infinity sign => .isTrue (.infinite sign)
  | .notANumber => .isFalse nofun

theorem large_iff {x : UnpackedFloat} :
    Large x ↔ (∃ sign, x = .infinity sign) ∨
      ∃ sign m e hm, x = .finite sign m e hm ∧ 4 ≤ totalExponent m e := by
  constructor
  · rintro (⟨sign⟩ | ⟨sign, hm, h⟩)
    · exact .inl ⟨sign, rfl⟩
    · exact .inr ⟨sign, _, _, hm, rfl, h⟩
  · rintro (⟨sign, rfl⟩ | ⟨sign, m, e, hm, rfl, h⟩)
    · exact .infinite sign
    · exact .finite sign hm h

/-! ### Rounding -/

theorem mantissa_shiftRight (x : ExtendedMantissa) (k : Nat) :
    (x >>> k).mantissa = x.mantissa / 2 ^ k := by
  show (k.repeat ExtendedMantissa.shiftRightOne x).mantissa = _
  induction k with
  | zero => rw [Nat.repeat, Nat.pow_zero, Nat.div_one]
  | succ k ih =>
    rw [Nat.repeat, ExtendedMantissa.shiftRightOne, ih, Nat.div_div_eq_div_mul, Nat.pow_succ]

theorem mantissa_ofMantissaAndAccuracy (m : Nat) (accuracy : Accuracy) :
    (ExtendedMantissa.ofMantissaAndAccuracy m accuracy).mantissa = m := by
  cases accuracy with
  | exact => rfl
  | inexact side => cases side <;> rfl

/-- Rounding adds one at most. -/
theorem roundedMantissa_le (x : ExtendedMantissa) : x.roundedMantissa ≤ x.mantissa + 1 := by
  rw [ExtendedMantissa.roundedMantissa]
  cases x.accuracy with
  | exact => exact Nat.le_succ _
  | inexact side =>
    cases side with
    | lt => exact Nat.le_succ _
    | eq =>
      show x.mantissa + x.mantissa % 2 ≤ _
      omega
    | gt => exact Nat.le_refl _

theorem log2_lt_of_lt {m k : Nat} (hk : 0 < k) (h : m < 2 ^ k) : m.log2 < k := by
  by_cases hm : m = 0
  · rw [hm, Nat.log2_zero]
    exact hk
  · exact (Nat.log2_lt hm).mpr h

/-- The bits that are left of a mantissa of `k` bits, with one more for the rounding. -/
theorem log2_roundedMantissa {x : ExtendedMantissa} {k s : Nat} (h : x.mantissa < 2 ^ k) :
    (x >>> s).roundedMantissa.log2 + s ≤ max k s := by
  have hle := roundedMantissa_le (x >>> s)
  rw [mantissa_shiftRight] at hle
  by_cases hks : k ≤ s
  · have hzero : x.mantissa / 2 ^ s = 0 :=
      Nat.div_eq_of_lt (Nat.lt_of_lt_of_le h (Nat.pow_le_pow_right (by decide) hks))
    have hlog := log2_lt_of_lt (m := (x >>> s).roundedMantissa) (k := 1) (by decide) (by omega)
    omega
  · have hdiv : x.mantissa / 2 ^ s < 2 ^ (k - s) := by
      rw [Nat.div_lt_iff_lt_mul (Nat.two_pow_pos s), ← Nat.pow_add, Nat.sub_add_cancel (by omega)]
      exact h
    have hlt : (x >>> s).roundedMantissa < 2 ^ (k - s + 1) := by
      rw [Nat.pow_succ]
      have hpos := Nat.two_pow_pos (k - s)
      omega
    have hlog := log2_lt_of_lt (Nat.succ_pos _) hlt
    omega

/-- Rounding shifts a mantissa to 53 bits, adds the bit that is due, and shifts again in case that
there are 54 of them now. -/
theorem round_steps (sign : Sign) (m : Nat) (e : Int) (accuracy : Accuracy) :
    ∃ s r s' q, s = (max ((m.log2 : Int) + 1 + e - 53) (-1074) - e).toNat ∧
      r = (ExtendedMantissa.ofMantissaAndAccuracy m accuracy >>> s).roundedMantissa ∧
      s' = (max ((r.log2 : Int) + 1 + (e + s) - 53) (-1074) - (e + s)).toNat ∧
      q = r / 2 ^ s' ∧
      roundWithAccuracy .binary64 sign m e accuracy =
        if h : q = 0 then .zero sign
        else .finite sign q (e + s + s') (Nat.pos_of_ne_zero h) := by
  refine ⟨_, _, _, _, rfl, rfl, rfl, ?_, rfl⟩
  rw [mantissa_shiftRight, mantissa_ofMantissaAndAccuracy]
  rfl

/-- A mantissa of `k` bits is rounded to 53 bits. -/
theorem bounded_round {m k : Nat} {e top : Int} (sign : Sign) (accuracy : Accuracy)
    (hm : m < 2 ^ k) (hk : 0 < k) (he : e ≤ top) (hbits : k + e ≤ top + 52) (htop : -1073 ≤ top) :
    Bounded top (roundWithAccuracy .binary64 sign m e accuracy) := by
  obtain ⟨s, r, s', q, hs, hr, hs', -, hround⟩ := round_steps sign m e accuracy
  have hlog := log2_lt_of_lt hk hm
  have hmantissa : (ExtendedMantissa.ofMantissaAndAccuracy m accuracy).mantissa < 2 ^ k := by
    rw [mantissa_ofMantissaAndAccuracy]
    exact hm
  have hrounded := log2_roundedMantissa (s := s) hmantissa
  rw [← hr] at hrounded
  rw [hround]
  by_cases hzero : q = 0
  · rw [dif_pos hzero]
    exact .zero sign
  · rw [dif_neg hzero]
    refine .finite sign _ ?_
    omega

theorem le_roundedMantissa (x : ExtendedMantissa) : x.mantissa ≤ x.roundedMantissa := by
  rw [ExtendedMantissa.roundedMantissa]
  cases x.accuracy with
  | exact => exact Nat.le_refl _
  | inexact side =>
    cases side with
    | lt => exact Nat.le_refl _
    | eq => exact Nat.le_add_right _ _
    | gt => exact Nat.le_succ _

theorem le_log2 {m : Nat} (h : 2 ^ 52 ≤ m) : 52 ≤ m.log2 :=
  (Nat.le_log2 (by omega)).mpr h

/-- A mantissa of 53 bits or more keeps 53 of them when it is shifted. -/
theorem le_shifted {m : Nat} (h : 2 ^ 52 ≤ m) : 2 ^ 52 ≤ m / 2 ^ (m.log2 - 52) := by
  rw [Nat.le_div_iff_mul_le (Nat.two_pow_pos _), ← Nat.pow_add, Nat.add_sub_cancel' (le_log2 h)]
  exact Nat.log2_self_le (by omega)

theorem log2_shifted {m : Nat} (h : 2 ^ 52 ≤ m) : (m / 2 ^ (m.log2 - 52)).log2 = 52 := by
  have hlow := le_shifted h
  have hhigh : m / 2 ^ (m.log2 - 52) < 2 ^ 53 := by
    have hbits : 53 + (m.log2 - 52) = m.log2 + 1 := by
      have hlog := le_log2 h
      omega
    rw [Nat.div_lt_iff_lt_mul (Nat.two_pow_pos _), ← Nat.pow_add, hbits]
    exact Nat.lt_log2_self
  exact (Nat.log2_eq_iff (by omega)).mpr ⟨hlow, hhigh⟩

/-- Rounding leaves 53 bits of what has no fewer, and the number no smaller in size. -/
theorem exists_round {m : Nat} {e : Int} (sign : Sign) (accuracy : Accuracy) (hm : 2 ^ 52 ≤ m)
    (he : 4 ≤ totalExponent m e) :
    ∃ m' e' hm', roundWithAccuracy .binary64 sign m e accuracy = .finite sign m' e' hm' ∧
      m'.log2 = 52 ∧ -49 ≤ e' := by
  obtain ⟨s, r, s', q, hs, hr, hs', hq, hround⟩ := round_steps sign m e accuracy
  have hlog := le_log2 hm
  rw [totalExponent] at he
  -- the number is so large that the least exponent is out of sight, so both shifts leave 53 bits
  have hr52 : 2 ^ 52 ≤ r := by
    have hshifted : s = m.log2 - 52 := by
      omega
    have hle := le_roundedMantissa (ExtendedMantissa.ofMantissaAndAccuracy m accuracy >>> s)
    rw [← hr, mantissa_shiftRight, mantissa_ofMantissaAndAccuracy, hshifted] at hle
    exact Nat.le_trans (le_shifted hm) hle
  have hrlog := le_log2 hr52
  have hshifted : s' = r.log2 - 52 := by
    omega
  have hlow := le_shifted hr52
  have hbits := log2_shifted hr52
  rw [← hshifted, ← hq] at hlow hbits
  have hne : q ≠ 0 := by
    omega
  rw [hround, dif_neg hne]
  exact ⟨_, _, Nat.pos_of_ne_zero hne, rfl, hbits, by omega⟩

/-! ### Bits -/

theorem toNat_lt_of_ne_ones {x : BitVec 11} (h : x ≠ -1#11) : x.toNat < 2047 := by
  have hlt := x.isLt
  have hne : x.toNat ≠ 2047 := fun htoNat => h (BitVec.eq_of_toNat_eq htoNat)
  omega

/-- An exponent that is not too large fits in its field, and does not set all bits of it. -/
theorem toNat_ofNat_exponent {n : Nat} (h : n < 2047) :
    (BitVec.ofNat 11 n).toNat = n ∧ BitVec.ofNat 11 n ≠ -1#11 := by
  have hnat : (BitVec.ofNat 11 n).toNat = n := by
    rw [BitVec.toNat_ofNat, Nat.mod_eq_of_lt (by omega)]
  refine ⟨hnat, fun hones => ?_⟩
  rw [hones] at hnat
  have h2047 : (-1#11).toNat = 2047 := rfl
  omega

/-- The numbers that the fields of a double can stand for. -/
inductive FromFields (exponent : BitVec 11) (mantissa : BitVec 52) : UnpackedFloat → Prop where
  | infinity (sign : Sign) (h : exponent = -1#11) (hm : mantissa = 0#52) :
    FromFields exponent mantissa (.infinity sign)
  | notANumber (h : exponent = -1#11) (hm : mantissa ≠ 0#52) :
    FromFields exponent mantissa .notANumber
  | zero (sign : Sign) (h : exponent = 0#11) : FromFields exponent mantissa (.zero sign)
  | subnormal (sign : Sign) {m : Nat} (h : exponent = 0#11) (hlt : m < 2 ^ 52) (hm : 0 < m) :
    FromFields exponent mantissa (.finite sign m (-1074) hm)
  | normal (sign : Sign) (hones : exponent ≠ -1#11) (hzero : exponent ≠ 0#11)
    (hm : 0 < (1#1 ++ mantissa).toNat) :
    FromFields exponent mantissa
      (.finite sign (1#1 ++ mantissa).toNat (exponent.toNat - ((1023 : Nat) + (52 : Nat))) hm)

/-- Where all bits of the exponent are set, there is no finite number. -/
theorem FromFields.eq_of_ones {mantissa : BitVec 52} {x : UnpackedFloat}
    (h : FromFields (-1#11) mantissa x) :
    (mantissa = 0#52 ∧ ∃ sign, x = .infinity sign) ∨ (mantissa ≠ 0#52 ∧ x = .notANumber) := by
  cases h with
  | infinity sign _ hm => exact .inl ⟨hm, sign, rfl⟩
  | notANumber _ hm => exact .inr ⟨hm, rfl⟩
  | zero _ hzero => exact absurd hzero (by decide)
  | subnormal _ hzero => exact absurd hzero (by decide)
  | normal _ hones => exact absurd rfl hones

/-- Otherwise the mantissa has an implicit bit, unless no bit of the exponent is set. -/
theorem FromFields.eq_of_ne {exponent : BitVec 11} {mantissa : BitVec 52} {x : UnpackedFloat}
    (h : FromFields exponent mantissa x) (hones : exponent ≠ -1#11) (hzero : exponent ≠ 0#11) :
    ∃ sign hm, x = .finite sign (1#1 ++ mantissa).toNat
      (exponent.toNat - ((1023 : Nat) + (52 : Nat))) hm := by
  cases h with
  | infinity _ h => exact absurd h hones
  | notANumber h => exact absurd h hones
  | zero _ h => exact absurd h hzero
  | subnormal _ h => exact absurd h hzero
  | normal sign _ _ hm => exact ⟨sign, hm, rfl⟩

theorem fromFields_unpack (b : BitVec 64) :
    FromFields (@unpackExponent .binary64 b) (@unpackMantissa .binary64 b)
      (unpack .binary64 b) := by
  delta unpack
  dsimp only
  by_cases hones : @unpackExponent .binary64 b = -1#11
  · rw [if_pos hones]
    by_cases hm : @unpackMantissa .binary64 b = 0#52
    · rw [if_pos hm]
      exact .infinity _ hones hm
    · rw [if_neg hm]
      exact .notANumber hones hm
  · rw [if_neg hones]
    by_cases hzero : @unpackExponent .binary64 b = 0#11
    · rw [if_pos hzero]
      by_cases hm : @unpackMantissa .binary64 b = 0#52
      · rw [dif_pos hm]
        exact .zero _ hzero
      · rw [dif_neg hm, hzero]
        exact .subnormal _ rfl (@unpackMantissa .binary64 b).isLt _
    · rw [if_neg hzero]
      exact .normal _ hones hzero _

theorem pack_finite (sign : Sign) {m : Nat} {e : Int} (hm : 0 < m) :
    pack .binary64 (.finite sign m e hm) =
      if 2048 ≤ (e + (1023 : Nat) + (52 : Nat)).toNat + 1 then packedInfinity .binary64 sign
      else if m.log2 + 1 = 53 then
        packComponents .binary64 sign (BitVec.ofNat 11 (e + (1023 : Nat) + (52 : Nat)).toNat)
          (BitVec.ofNat 52 m)
      else packComponents .binary64 sign (0#11) (BitVec.ofNat 52 m) := rfl

/-- What is in the bits is bounded by the field of the exponent, which is all ones for what is no
finite number. -/
theorem bounded_unpack {b : BitVec 64} {exponent : BitVec 11}
    (hexponent : @unpackExponent .binary64 b = exponent) (h : exponent ≠ -1#11) :
    Bounded (max (exponent.toNat - 1075) (-1074)) (unpack .binary64 b) := by
  have hfields := fromFields_unpack b
  rw [hexponent] at hfields
  generalize unpack .binary64 b = x at hfields ⊢
  cases hfields with
  | infinity sign hones => exact absurd hones h
  | notANumber hones => exact absurd hones h
  | zero sign => exact .zero sign
  | subnormal sign hzero hlt hm => exact .finite sign hm (by omega)
  | normal sign hones hzero hm => exact .finite sign hm (by omega)

/-- A finite number in bits has a mantissa of 53 bits. -/
theorem mantissa_lt_of_unpack {b : BitVec 64} {sign : Sign} {m : Nat} {e : Int} {hm : 0 < m}
    (h : unpack .binary64 b = .finite sign m e hm) : m < 2 ^ 53 := by
  have hfields := fromFields_unpack b
  rw [h] at hfields
  cases hfields with
  | subnormal _ _ hlt => omega
  | normal => exact (1#1 ++ @unpackMantissa .binary64 b).isLt

theorem bounded_unpack_pack {top : Int} {x : UnpackedFloat} (hx : Bounded top x)
    (hlow : -1074 ≤ top) (htop : top ≤ 971) :
    Bounded top (unpack .binary64 (pack .binary64 x)) := by
  rcases bounded_iff.mp hx with ⟨sign, rfl⟩ | ⟨sign, m, e, hm, rfl, he⟩
  · refine Bounded.mono ?_ (bounded_unpack unpackExponent_packComponents (by decide))
    exact hlow
  · rw [pack_finite]
    generalize hbiased : (e + (1023 : Nat) + (52 : Nat)).toNat = biased
    have hbound : biased < 2047 := by
      omega
    rw [if_neg (by omega)]
    split
    · obtain ⟨hnat, hones⟩ := toNat_ofNat_exponent hbound
      refine Bounded.mono ?_ (bounded_unpack unpackExponent_packComponents hones)
      rw [hnat]
      omega
    -- a number without the implicit bit has the least exponent
    · refine Bounded.mono ?_ (bounded_unpack unpackExponent_packComponents (by decide))
      exact hlow

theorem le_toNat_one_append (b : BitVec 52) : 2 ^ 52 ≤ (1#1 ++ b).toNat := by
  rw [BitVec.toNat_append]
  exact Nat.left_le_or

/-- A number of 53 bits keeps its size, or is too large and becomes infinite. -/
theorem large_unpack_pack {m : Nat} {e : Int} (sign : Sign) (hm : 0 < m) (hbits : m.log2 = 52)
    (he : -49 ≤ e) : Large (unpack .binary64 (pack .binary64 (.finite sign m e hm))) := by
  rw [pack_finite]
  generalize hbiased : (e + (1023 : Nat) + (52 : Nat)).toNat = biased
  split
  · have hfields := fromFields_unpack (packedInfinity .binary64 sign)
    rw [packedInfinity, unpackExponent_packComponents, unpackMantissa_packComponents] at hfields
    rcases hfields.eq_of_ones with ⟨-, sign, hx⟩ | ⟨hne, -⟩
    · rw [packedInfinity, hx]
      exact .infinite sign
    · exact absurd rfl hne
  · next hfits =>
    rw [if_pos (by rw [hbits])]
    have hfields := fromFields_unpack (packComponents .binary64 sign (BitVec.ofNat 11 biased)
      (BitVec.ofNat 52 m))
    rw [unpackExponent_packComponents, unpackMantissa_packComponents] at hfields
    obtain ⟨hnat, hne⟩ := toNat_ofNat_exponent (n := biased) (by omega)
    have hnonzero : BitVec.ofNat 11 biased ≠ 0#11 := by
      intro hzero
      rw [hzero] at hnat
      have h0 : (0#11).toNat = 0 := rfl
      omega
    obtain ⟨sign, hpos, hx⟩ := hfields.eq_of_ne hne hnonzero
    have hlog := le_log2 (le_toNat_one_append (BitVec.ofNat 52 m))
    rw [hx]
    refine .finite sign hpos ?_
    rw [totalExponent, hnat]
    omega

/-! ### Finite doubles -/

theorem exponent_ne_of_isFinite {x : Float} (h : x.isFinite = true) :
    @unpackExponent .binary64 x.toBits.toBitVec ≠ -1#11 := by
  intro hones
  have hfinite : (unpack .binary64 x.toBits.toBitVec).isFinite = true := h
  have hfields := fromFields_unpack x.toBits.toBitVec
  rw [hones] at hfields
  rcases hfields.eq_of_ones with ⟨-, sign, hx⟩ | ⟨-, hx⟩
  · rw [hx] at hfinite
    cases hfinite
  · rw [hx] at hfinite
    cases hfinite

theorem exponent_field (b : BitVec 64) :
    b.toNat / Nat.pow 2 52 % Nat.pow 2 11 = (@unpackExponent .binary64 b).toNat := by
  show _ = (b.toNat >>> 52) % 2 ^ 11
  rw [Nat.shiftRight_eq_div_pow]

theorem bounded_of_exponent {x : Float}
    (hones : @unpackExponent .binary64 x.toBits.toBitVec ≠ -1#11) :
    Bounded 971 x.toModel.unpack := by
  generalize hexponent : @unpackExponent .binary64 x.toBits.toBitVec = exponent at hones
  have hlt := toNat_lt_of_ne_ones hones
  refine Bounded.mono ?_ (bounded_unpack hexponent hones)
  omega

theorem bounded_of_isFinite {x : Float} (h : x.isFinite = true) : Bounded 971 x.toModel.unpack :=
  bounded_of_exponent (exponent_ne_of_isFinite h)

theorem isFinite_of_bounded {x : Float} (h : Bounded 971 x.toModel.unpack) :
    x.isFinite = true := by
  show x.toModel.unpack.isFinite = true
  rcases bounded_iff.mp h with ⟨sign, hx⟩ | ⟨sign, m, e, hm, hx, -⟩
  · rw [hx]
    rfl
  · rw [hx]
    rfl

/-- The finite doubles are those with digits. -/
theorem isFinite_iff_finite {x : Float} :
    x.isFinite = true ↔ ∃ negative m q, Double.ofFloat x = .finite negative m q := by
  have hfield := exponent_field x.toBits.toBitVec
  rw [UInt64.toNat_toBitVec] at hfield
  simp only [Double.ofFloat, Double.ofBits, Double.ofFields, hfield]
  constructor
  · intro h
    have hne : (@unpackExponent .binary64 x.toBits.toBitVec).toNat ≠ 2047 :=
      fun hones => exponent_ne_of_isFinite h (BitVec.eq_of_toNat_eq hones)
    rw [if_neg hne]
    split
    · exact ⟨_, _, _, rfl⟩
    · exact ⟨_, _, _, rfl⟩
  · rintro ⟨negative, m, q, h⟩
    have hones : @unpackExponent .binary64 x.toBits.toBitVec ≠ -1#11 := by
      intro hones
      rw [hones, if_pos (by rfl)] at h
      split at h <;> cases h
    exact isFinite_of_bounded (bounded_of_exponent hones)

/-! ### Arithmetic -/

theorem isFinite_neg {x : Float} (h : x.isFinite = true) : (-x).isFinite = true := by
  have hneg : Bounded 971 x.toModel.unpack.neg := by
    rcases bounded_iff.mp (bounded_of_isFinite h) with ⟨sign, hx⟩ | ⟨sign, m, e, hm, hx, he⟩
    · rw [hx]
      exact .zero _
    · rw [hx]
      exact .finite _ hm he
  exact isFinite_of_bounded (bounded_unpack_pack hneg (by decide) (by decide))

/-- The exponents of two factors are added, and rounding adds the bits of one of them. -/
theorem bounded_mul {x y : Float} {a b : Int} (hx : Bounded a x.toModel.unpack)
    (hy : Bounded b y.toModel.unpack) (hlow : -1127 ≤ a + b) (hhigh : a + b ≤ 917) :
    Bounded (a + b + 54) (x * y).toModel.unpack := by
  refine bounded_unpack_pack ?_ (by omega) (by omega)
  rcases bounded_iff.mp hx with ⟨s₁, hx⟩ | ⟨s₁, m₁, e₁, hm₁, hx, he₁⟩
  · rcases bounded_iff.mp hy with ⟨s₂, hy⟩ | ⟨s₂, m₂, e₂, hm₂, hy, he₂⟩ <;> rw [hx, hy] <;>
      exact .zero _
  · rcases bounded_iff.mp hy with ⟨s₂, hy⟩ | ⟨s₂, m₂, e₂, hm₂, hy, he₂⟩
    · rw [hx, hy]
      exact .zero _
    · have hbits : m₁ * m₂ < 2 ^ 106 := calc
        m₁ * m₂ < 2 ^ 53 * 2 ^ 53 :=
          Nat.mul_lt_mul'' (mantissa_lt_of_unpack hx) (mantissa_lt_of_unpack hy)
        _ = 2 ^ 106 := (Nat.pow_add 2 53 53).symm
      rw [hx, hy]
      exact bounded_round _ _ hbits (by decide) (by omega) (by omega) (by omega)

/-- How many bits the quotient of two mantissas has. -/
theorem quotient_lt {m₁ m₂ s k : Nat} (h₁ : m₁ < 2 ^ 53) (h₂ : 0 < m₂)
    (hk : 53 + s ≤ k + m₂.log2) : (m₁ <<< s) / m₂ < 2 ^ k := by
  rw [Nat.div_lt_iff_lt_mul h₂, Nat.shiftLeft_eq]
  calc
    m₁ * 2 ^ s < 2 ^ 53 * 2 ^ s := Nat.mul_lt_mul_of_pos_right h₁ (Nat.two_pow_pos s)
    _ = 2 ^ (53 + s) := (Nat.pow_add 2 53 s).symm
    _ ≤ 2 ^ (k + m₂.log2) := Nat.pow_le_pow_right (by decide) hk
    _ = 2 ^ k * 2 ^ m₂.log2 := Nat.pow_add 2 k m₂.log2
    _ ≤ 2 ^ k * m₂ := Nat.mul_le_mul_left _ (Nat.log2_self_le (Nat.pos_iff_ne_zero.mp h₂))

/-- Division shifts the dividend to as many bits as the quotient is to have. -/
theorem div_steps (sign₁ sign₂ : Sign) {m₁ m₂ : Nat} (e₁ e₂ : Int) (h₁ : 0 < m₁) (h₂ : 0 < m₂) :
    ∃ target s accuracy,
      target = min (e₁ - e₂)
        (max ((m₁.log2 : Int) + 1 + e₁ - ((m₂.log2 : Int) + 1 + e₂) - 53) (-1074)) ∧
      s = (e₁ - e₂ - target).toNat ∧
      div .binary64 (.finite sign₁ m₁ e₁ h₁) (.finite sign₂ m₂ e₂ h₂) =
        roundWithAccuracy .binary64 (sign₁ / sign₂) ((m₁ <<< s) / m₂) target accuracy :=
  ⟨_, _, _, rfl, rfl, rfl⟩

/-- A finite number stays finite when it is divided by a number that is not below eight. -/
theorem isFinite_div {x y : Float} (hx : x.isFinite = true) (hy : Large y.toModel.unpack) :
    (x / y).isFinite = true := by
  refine isFinite_of_bounded (bounded_unpack_pack ?_ (by decide) (by decide))
  rcases large_iff.mp hy with ⟨sign, hy⟩ | ⟨sign, m, e, hm, hy, hlarge⟩
  · rcases bounded_iff.mp (bounded_of_isFinite hx) with ⟨s₁, hx⟩ | ⟨s₁, m₁, e₁, hm₁, hx, he₁⟩ <;>
      rw [hx, hy] <;> exact .zero _
  rcases bounded_iff.mp (bounded_of_isFinite hx) with ⟨s₁, hx⟩ | ⟨s₁, m₁, e₁, hm₁, hx, he₁⟩
  · rw [hx, hy]
    exact .zero _
  -- what the divisor takes from the exponent leaves room for the bit that rounding may add
  · obtain ⟨target, s, accuracy, htarget, hshift, hdiv⟩ := div_steps s₁ sign e₁ e hm₁ hm
    rw [hx, hy, hdiv]
    have hlog := log2_lt_of_lt (by decide) (mantissa_lt_of_unpack hx)
    rw [totalExponent] at hlarge
    have hbits := quotient_lt (s := s) (k := 53 + s - m.log2 + 1) (mantissa_lt_of_unpack hx) hm
      (by omega)
    exact bounded_round _ _ hbits (by omega) (by omega) (by omega) (by decide)

/-! ### Integers and powers of ten -/

theorem shiftLeft_lt {m k : Nat} (h : m < 2 ^ k) (s : Nat) : m <<< s < 2 ^ (k + s) := by
  rw [Nat.shiftLeft_eq, Nat.pow_add]
  exact Nat.mul_lt_mul_of_pos_right h (Nat.two_pow_pos s)

theorem bounded_round_nat {m : Nat} (sign : Sign) (h : m < 2 ^ 53) :
    Bounded 1 (UnpackedFloat.round .binary64 sign m 0) := by
  simp only [UnpackedFloat.round, decreaseExponent]
  generalize (0 - Float.Model.Format.binary64.targetExponent (totalExponent m 0)).toNat = s
  exact bounded_round _ _ (shiftLeft_lt h s) (by omega) (by omega) (by omega) (by decide)

theorem bounded_toFloat {n : Nat} (h : n < 2 ^ 53) :
    Bounded 1 n.toUInt64.toFloat.toModel.unpack := by
  have hn : n.toUInt64.toNat = n :=
    UInt64.toNat_ofNat_of_lt (Nat.lt_trans h (by decide))
  refine bounded_unpack_pack ?_ (by decide) (by decide)
  simp only [ofUInt64, ofNat, ofInt, UnpackedFloat.normalize, hn]
  split
  · exact bounded_round_nat _ (by omega)
  · exact .zero _
  · exact bounded_round_nat _ (by omega)

/-- A number that has too many digits for the table is rounded from its digits. -/
theorem ofScientific_eq {m k : Nat} (hm : m ≠ 0) (hk : k ≤ 2048) :
    ofScientific .binary64 m k =
      roundWithAccuracy .binary64 .positive (m <<< 53 * 10 ^ k) (-53) .exact := by
  have hguard : (2 : Int) ^ Float.Model.Format.binary64.exponentBits = 2048 := rfl
  rw [ofScientific, hguard, dif_neg hm, if_neg (by omega), if_neg (by omega), if_pos (by omega)]
  rfl

/-- Integers of 64 bits are far below the largest double. -/
theorem isFinite_ofNat {n : Nat} (h : n < UInt64.size) : (Float.ofNat n).isFinite = true := by
  show (Float.ofScientific n false 0).isFinite = true
  rw [Float.ofScientific]
  split
  · next hsmall =>
    have hone : Bounded (-52) (Float.ofBits 0x3FF0000000000000).toModel.unpack := by
      decide +kernel
    have hproduct := bounded_mul (bounded_toFloat hsmall.1) hone (by decide) (by decide)
    exact isFinite_of_bounded (hproduct.mono (by decide))
  · next hlarge =>
    have hzero : n ≠ 0 := by
      omega
    refine isFinite_of_bounded (bounded_unpack_pack ?_ (by decide) (by decide))
    show Bounded 971 (ofScientific .binary64 n (0 : Nat))
    rw [ofScientific_eq hzero (by decide), Nat.pow_zero, Nat.mul_one]
    exact bounded_round _ .exact (shiftLeft_lt (k := 64) h 53) (by decide) (by decide) (by decide)
      (by decide)

/-- A power of ten that is too large for the table is computed from its digits. -/
theorem tenTo_eq {k : Nat} (hk : 22 < k) (htop : k ≤ topPower) :
    (tenTo k).toModel.unpack = unpack .binary64 (pack .binary64
      (roundWithAccuracy .binary64 .positive (1 <<< 53 * 10 ^ k) (-53) .exact)) := by
  have hpower : topPower = 308 := rfl
  rw [tenTo, Float.ofScientific, dif_neg (by omega), ← ofScientific_eq Nat.one_ne_zero (by omega)]
  rfl

/-- The powers of ten are not below eight, but for the first. -/
theorem tenTo_large {k : Nat} (hpos : 0 < k) (htop : k ≤ topPower) :
    Large (tenTo k).toModel.unpack := by
  by_cases hk : k ≤ 22
  · have htable : ∀ k ∈ List.range 23, k = 0 ∨ Large (tenTo k).toModel.unpack := by
      decide +kernel
    rcases htable k (List.mem_range.mpr (Nat.lt_succ_of_le hk)) with hzero | hlarge
    · exact absurd hzero (Nat.pos_iff_ne_zero.mp hpos)
    · exact hlarge
  · have hdigits : 2 ^ 53 * 2 ^ 22 ≤ 1 <<< 53 * 10 ^ k :=
      Nat.mul_le_mul_left _ (calc
        2 ^ 22 ≤ 10 ^ 22 := by decide
        _ ≤ 10 ^ k := Nat.pow_le_pow_right (by decide) (by omega))
    have hlog : 75 ≤ (1 <<< 53 * 10 ^ k).log2 := (Nat.le_log2 (by omega)).mpr hdigits
    have hsize : 4 ≤ totalExponent (1 <<< 53 * 10 ^ k) (-53) := by
      rw [totalExponent]
      omega
    obtain ⟨m, e, hm, hround, hbits, he⟩ := exists_round .positive .exact (by omega) hsize
    rw [tenTo_eq (by omega) htop, hround]
    exact large_unpack_pack .positive hm hbits he

/-! ### Reading -/

/-- A finite number that is scaled is finite, unless it is too large. -/
theorem isFinite_scale {x y : Float} {e : Int} (hx : x.isFinite = true)
    (h : scale x e = some y) : y.isFinite = true := by
  fun_induction scale x e with
  | case1 x e hlow hzero =>
    cases h
    exact hx
  | case2 x e hlow hzero ih =>
    have hlarge : Large (tenTo topPower).toModel.unpack :=
      tenTo_large (k := topPower) (by decide) (Nat.le_refl _)
    exact ih (isFinite_div hx hlarge) h
  | case3 x e hlow hneg =>
    cases h
    exact isFinite_div hx (tenTo_large (by omega) (by omega))
  | case4 x e hlow hneg htop => exact (Option.filter_eq_some_iff.mp h).2
  | case5 =>
    cases h
    exact hx
  | case6 => cases h

theorem isFinite_scaled? {s : Spelling} {x : Float} (h : s.scaled? = some x) :
    x.isFinite = true :=
  isFinite_scale (isFinite_ofNat (fill_fits (fill_fits (by decide) _) _)) h

end QueryTrace.Decimal

namespace QueryTrace.Json

/-- A number that is read is finite. -/
theorem isFinite_of_real? {raw : String} {x : Float} (h : real? raw = some x) :
    x.isFinite = true := by
  rw [real?] at h
  split at h
  · obtain ⟨y, hy, rfl⟩ := Option.map_eq_some_iff.mp h
    obtain ⟨s, -, hs⟩ := Option.bind_eq_some_iff.mp hy
    exact Decimal.isFinite_neg (Decimal.isFinite_scaled? hs)
  · obtain ⟨s, -, hs⟩ := Option.bind_eq_some_iff.mp h
    exact Decimal.isFinite_scaled? hs

end QueryTrace.Json

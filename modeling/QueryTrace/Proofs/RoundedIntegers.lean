/-
Integers are rounded in their order.

An integer that has more than 53 bits is rounded when it becomes a double.  Rounding may make two
integers equal, but it never turns them around, and it keeps integers below `2 ^ 53` apart.

* `weight` — a mantissa with the bits behind it as one number: shifting and rounding go up with it;
* `significand` — the 53 bits that are left of a mantissa, or a carry: `significand_le` and
  `significand_exact`;
* `round_eq` — what rounding makes of a mantissa and an exponent;
* `roundedPlace` — the place of an integer among the doubles: `standsAt_ofNat`, and
  `roundedPlace_le` and `roundedPlace_lt` for its order;
* **`integerPlace_le`** and **`eq_or_large_of_integerPlace_eq`** — integers with signs stay in their
  order, and only large ones become equal.

Design notes: an integer below `2 ^ 53` is multiplied by one on its way, and a larger one is
multiplied by `2 ^ 53` and divided again.  Both ways lead to the same place.
-/
import QueryTrace.Proofs.FloatOrder

namespace QueryTrace.Decimal

open Float.Model (UnpackedFloat totalExponent)
open Float.Model.UnpackedFloat

/-! ### Shifting and rounding -/

/-- A mantissa with no bits behind it. -/
def exactly (m : Nat) : ExtendedMantissa :=
  ⟨m, false, false⟩

/-- The mantissa and the two bits behind it as one number. -/
def weight (x : ExtendedMantissa) : Nat :=
  4 * x.mantissa + 2 * x.roundBit.toNat + x.stickyBit.toNat

section Weights

variable {x y : ExtendedMantissa}

theorem weight_shiftRightOne (x : ExtendedMantissa) :
    weight x.shiftRightOne = weight x / 4 * 2 + (weight x % 4 + 3) / 4 := by
  obtain ⟨m, round, sticky⟩ := x
  have hbit : (m % 2 != 0).toNat = m % 2 := by
    rcases Nat.mod_two_eq_zero_or_one m with h | h <;> rw [h] <;> rfl
  simp only [weight, ExtendedMantissa.shiftRightOne, hbit]
  cases round <;> cases sticky <;>
    simp only [Bool.or_false, Bool.or_true, Bool.toNat_true, Bool.toNat_false] <;> omega

theorem weight_shiftRightOne_le (h : weight x ≤ weight y) :
    weight x.shiftRightOne ≤ weight y.shiftRightOne := by
  rw [weight_shiftRightOne, weight_shiftRightOne]
  omega

theorem weight_shiftRight_le (h : weight x ≤ weight y) (s : Nat) :
    weight (x >>> s) ≤ weight (y >>> s) := by
  show weight (s.repeat _ x) ≤ weight (s.repeat _ y)
  induction s with
  | zero => exact h
  | succ s ih => exact weight_shiftRightOne_le ih

/-- A half is rounded up if the mantissa is odd. -/
theorem roundedMantissa_eq (x : ExtendedMantissa) :
    x.roundedMantissa = (weight x + 1 + weight x / 4 % 2) / 4 := by
  obtain ⟨m, round, sticky⟩ := x
  have hdiv : weight ⟨m, round, sticky⟩ / 4 = m := by
    cases round <;> cases sticky <;>
      simp only [weight, Bool.toNat_true, Bool.toNat_false] <;> omega
  rw [hdiv]
  cases round <;> cases sticky <;>
    simp only [weight, Bool.toNat_true, Bool.toNat_false, ExtendedMantissa.roundedMantissa,
      ExtendedMantissa.accuracy, Accuracy.roundToNearestEven] <;> omega

/-- Rounding goes up with the weight. -/
theorem roundedMantissa_le_of_weight_le (h : weight x ≤ weight y) :
    x.roundedMantissa ≤ y.roundedMantissa := by
  rw [roundedMantissa_eq, roundedMantissa_eq]
  have hmantissa : weight x / 4 = weight y / 4 ∨ weight x / 4 + 1 ≤ weight y / 4 := by
    omega
  rcases hmantissa with heq | hlt
  · rw [heq]
    omega
  · omega

end Weights

/-- Zeros that are shifted out leave nothing behind. -/
theorem exactly_shiftRight (q s : Nat) : exactly (q * 2 ^ s) >>> s = exactly q := by
  show s.repeat _ _ = _
  induction s generalizing q with
  | zero => rw [Nat.repeat, Nat.pow_zero, Nat.mul_one]
  | succ s ih =>
    have hfactor : q * 2 ^ (s + 1) = q * 2 * 2 ^ s := by
      rw [Nat.pow_succ, Nat.mul_comm (2 ^ s), Nat.mul_assoc]
    rw [Nat.repeat, hfactor, ih]
    simp [ExtendedMantissa.shiftRightOne, exactly]

/-! ### 53 bits -/

/-- The mantissa that is left when all but 53 bits are rounded off; it has 54 bits if there is a
carry. -/
def significand (m : Nat) : Nat :=
  (exactly m >>> (m.log2 - 52)).roundedMantissa

section Significands

variable {m n : Nat}

theorem le_significand (h : 2 ^ 52 ≤ m) : 2 ^ 52 ≤ significand m := by
  have hle := le_roundedMantissa (exactly m >>> (m.log2 - 52))
  rw [mantissa_shiftRight] at hle
  exact Nat.le_trans (le_shifted h) hle

theorem significand_le_two_pow (h : 2 ^ 52 ≤ m) : significand m ≤ 2 ^ 53 := by
  have hle := roundedMantissa_le (exactly m >>> (m.log2 - 52))
  have hlog := log2_shifted h
  have hshifted := Nat.lt_log2_self (n := m / 2 ^ (m.log2 - 52))
  rw [hlog] at hshifted
  rw [mantissa_shiftRight] at hle
  exact Nat.le_trans hle hshifted

/-- Where the same bits are rounded off, the order stays. -/
theorem significand_le (hlog : m.log2 = n.log2) (h : m ≤ n) : significand m ≤ significand n := by
  rw [significand, significand, hlog]
  refine roundedMantissa_le_of_weight_le (weight_shiftRight_le ?_ _)
  rw [weight, weight]
  show 4 * m + 0 + 0 ≤ 4 * n + 0 + 0
  omega

theorem log2_mul_two_pow (h : m ≠ 0) (s : Nat) : (m * 2 ^ s).log2 = m.log2 + s := by
  have hlow := Nat.log2_self_le h
  have hhigh := Nat.lt_log2_self (n := m)
  have hpower : 2 ^ s ≠ 0 := Nat.pos_iff_ne_zero.mp (Nat.two_pow_pos s)
  refine (Nat.log2_eq_iff (Nat.mul_ne_zero h hpower)).mpr ⟨?_, ?_⟩
  · rw [Nat.pow_add]
    exact Nat.mul_le_mul_right _ hlow
  · rw [Nat.add_right_comm, Nat.pow_add]
    exact Nat.mul_lt_mul_of_pos_right hhigh (Nat.two_pow_pos s)

theorem log2_eq_of_bits (hlow : 2 ^ 52 ≤ m) (hhigh : m < 2 ^ 53) : m.log2 = 52 :=
  (Nat.log2_eq_iff (by omega)).mpr ⟨hlow, hhigh⟩

/-- What has no more than 53 bits, but for zeros, is not rounded. -/
theorem significand_exact (hlow : 2 ^ 52 ≤ m) (hhigh : m < 2 ^ 53) (s : Nat) :
    significand (m * 2 ^ s) = m := by
  have hlog : (m * 2 ^ s).log2 - 52 = s := by
    rw [log2_mul_two_pow (by omega), log2_eq_of_bits hlow hhigh]
    omega
  rw [significand, hlog, exactly_shiftRight]
  rfl

end Significands

theorem finite_eq {sign sign' : Sign} {m m' : Nat} {e e' : Int} {hm : 0 < m} {hm' : 0 < m'}
    (hsign : sign = sign') (h : m = m') (he : e = e') :
    UnpackedFloat.finite sign m e hm = .finite sign' m' e' hm' := by
  subst hsign h he
  rfl

/-- Rounding leaves 53 bits, and the exponent makes up for what is shifted out. -/
theorem round_eq {m : Nat} {e : Int} (sign : Sign) (hm : 2 ^ 52 ≤ m) (he : -1074 ≤ e) :
    ∃ (q k : Nat) (hq : 0 < q), roundWithAccuracy .binary64 sign m e .exact =
        .finite sign q (e + (m.log2 - 52 : Nat) + k) hq ∧
      (k = 0 ∧ q = significand m ∧ q < 2 ^ 53 ∨
        k = 1 ∧ q = 2 ^ 52 ∧ significand m = 2 ^ 53) := by
  obtain ⟨s, r, s', q, hs, hr, hs', hq, hround⟩ := round_steps sign m e .exact
  have hlog := le_log2 hm
  have hshift : s = m.log2 - 52 := by
    omega
  have hsignificand : r = significand m := by
    rw [hr, hshift]
    rfl
  have hlow := le_significand hm
  have hhigh := significand_le_two_pow hm
  rw [← hsignificand] at hlow hhigh
  have hrlog := le_log2 hlow
  have hcarry : s' = r.log2 - 52 := by
    omega
  rcases Nat.lt_or_ge r (2 ^ 53) with hr53 | hr53
  · have hzero : s' = 0 := by
      rw [hcarry, log2_eq_of_bits hlow hr53]
    have hqr : q = r := by
      rw [hq, hzero, Nat.pow_zero, Nat.div_one]
    rw [hround, dif_neg (by omega)]
    refine ⟨q, 0, by omega, finite_eq rfl rfl ?_, .inl ⟨rfl, hqr.trans hsignificand, hqr ▸ hr53⟩⟩
    rw [hzero, hshift]
  · have hr54 : r = 2 ^ 53 := Nat.le_antisymm hhigh hr53
    have hone : s' = 1 := by
      rw [hcarry, hr54, Nat.log2_two_pow]
    have hq52 : q = 2 ^ 52 := by
      rw [hq, hone, hr54]
      decide
    rw [hround, dif_neg (by omega)]
    refine ⟨q, 1, by omega, finite_eq rfl rfl ?_, .inr ⟨rfl, hq52, hsignificand ▸ hr54⟩⟩
    rw [hone, hshift]

/-! ### Through the bits -/

theorem unpackSign_packComponents (sign : Sign) (exponent : BitVec 11) (mantissa : BitVec 52) :
    Sign.ofBitVec (@unpackSign .binary64 (packComponents .binary64 sign exponent mantissa)) =
      sign := by
  have hsign : @unpackSign .binary64 (packComponents .binary64 sign exponent mantissa) =
      sign.toBitVec := by
    ext i hi
    obtain rfl : i = 0 := by
      omega
    have hfront : (sign.toBitVec ++ exponent ++ mantissa).getLsbD 63 = sign.toBitVec.getLsbD 0 := by
      rw [BitVec.getLsbD_append, BitVec.getLsbD_append]
      rfl
    delta unpackSign packComponents
    rw [BitVec.getElem_cast, BitVec.extractLsb, BitVec.getElem_extractLsb']
    exact hfront
  rw [hsign]
  cases sign <;> rfl

/-- The implicit bit is put back in front. -/
theorem toNat_one_append {m : Nat} (hlow : 2 ^ 52 ≤ m) (hhigh : m < 2 ^ 53) :
    (1#1 ++ BitVec.ofNat 52 m).toNat = m := by
  have hmod : (BitVec.ofNat 52 m).toNat = m - 2 ^ 52 := by
    rw [BitVec.toNat_ofNat]
    omega
  have hor : (1 <<< 52 ||| (m - 2 ^ 52)) = 1 <<< 52 + (m - 2 ^ 52) :=
    (Nat.shiftLeft_add_eq_or_of_lt (by omega) 1).symm
  rw [BitVec.toNat_append, hmod]
  show 1 <<< 52 ||| (m - 2 ^ 52) = m
  rw [hor, Nat.one_shiftLeft]
  omega

/-- A number with 53 bits gets through the bits of a double. -/
theorem unpack_pack {m : Nat} {e : Int} (sign : Sign) (hm : 0 < m) (h : IsDouble m e)
    (hlow : 2 ^ 52 ≤ m) :
    unpack .binary64 (pack .binary64 (.finite sign m e hm)) = .finite sign m e hm := by
  have hbits := h.bits
  have helow := h.low
  have hehigh := h.high
  have hlog := log2_eq_of_bits hlow hbits
  rw [pack_finite]
  generalize hbiased : (e + (1023 : Nat) + (52 : Nat)).toNat = biased
  have hfield : (e : Int) = biased - 1075 := by
    omega
  obtain ⟨hnat, hones⟩ := toNat_ofNat_exponent (n := biased) (by omega)
  have hzero : BitVec.ofNat 11 biased ≠ 0#11 := by
    intro hzero
    rw [hzero] at hnat
    have h0 : (0#11).toNat = 0 := rfl
    omega
  rw [if_neg (by omega), if_pos (by rw [hlog])]
  delta unpack
  dsimp only
  rw [if_neg (by rw [unpackExponent_packComponents]; exact hones),
    if_neg (by rw [unpackExponent_packComponents]; exact hzero)]
  refine finite_eq (unpackSign_packComponents sign _ _) ?_ ?_
  · rw [unpackMantissa_packComponents]
    exact toNat_one_append hlow hbits
  · rw [unpackExponent_packComponents]
    show ((BitVec.ofNat 11 biased).toNat : Int) - ((1023 : Nat) + (52 : Nat)) = e
    omega

/-! ### Integers without a sign -/

/-- The place that an integer gets among the doubles. -/
def roundedPlace (n : Nat) : Int :=
  if n = 0 then 0 else placeOf (significand (n <<< 53)) (n.log2 - 52)

/-- Is the number positive, of 53 bits, and in this place? -/
def StandsAt (place : Int) (x : UnpackedFloat) : Prop :=
  ∃ m e hm, x = .finite .positive m e hm ∧ IsDouble m e ∧ 2 ^ 52 ≤ m ∧ placeOf m e = place

section Naturals

variable {m n : Nat}

theorem log2_shiftLeft (h : n ≠ 0) (s : Nat) : (n <<< s).log2 = n.log2 + s := by
  rw [Nat.shiftLeft_eq, log2_mul_two_pow h]

theorem two_pow_le_shiftLeft (h : n ≠ 0) : 2 ^ 52 ≤ n <<< 53 := by
  rw [Nat.shiftLeft_eq]
  omega

theorem log2_le_log2 (hm : m ≠ 0) (h : m ≤ n) : m.log2 ≤ n.log2 :=
  (Nat.le_log2 (by omega)).mpr (Nat.le_trans (Nat.log2_self_le hm) h)

/-- The bits of a small integer are moved to the front. -/
theorem bits_shiftLeft (h : n ≠ 0) (hn : n < 2 ^ 53) :
    2 ^ 52 ≤ n <<< (52 - n.log2) ∧ n <<< (52 - n.log2) < 2 ^ 53 := by
  have hlog : n.log2 < 53 := log2_lt_of_lt (by decide) hn
  have hshifted : (n <<< (52 - n.log2)).log2 = 52 := by
    rw [log2_shiftLeft h]
    omega
  have hne : n <<< (52 - n.log2) ≠ 0 := by
    intro hzero
    rw [hzero] at hshifted
    cases hshifted
  exact (Nat.log2_eq_iff hne).mp hshifted

theorem significand_small (h : n ≠ 0) (hn : n < 2 ^ 53) :
    significand (n <<< 53) = n <<< (52 - n.log2) := by
  obtain ⟨hlow, hhigh⟩ := bits_shiftLeft h hn
  have hlog : n.log2 < 53 := log2_lt_of_lt (by decide) hn
  have hshift : n <<< 53 = n <<< (52 - n.log2) * 2 ^ (n.log2 + 1) := by
    rw [Nat.shiftLeft_eq, Nat.shiftLeft_eq, Nat.mul_assoc, ← Nat.pow_add]
    congr 2
    omega
  rw [hshift, significand_exact hlow hhigh]

theorem roundedPlace_of_ne_zero (h : n ≠ 0) :
    roundedPlace n = placeOf (significand (n <<< 53)) (n.log2 - 52) :=
  if_neg h

theorem roundedPlace_pos (h : n ≠ 0) : 0 < roundedPlace n := by
  have hlow := le_significand (two_pow_le_shiftLeft h)
  rw [roundedPlace_of_ne_zero h, placeOf]
  omega

theorem roundedPlace_nonneg (n : Nat) : 0 ≤ roundedPlace n := by
  by_cases h : n = 0
  · exact Int.le_of_eq (if_pos h).symm
  · exact Int.le_of_lt (roundedPlace_pos h)

/-- **Integers stay in their order.** -/
theorem roundedPlace_le (h : m ≤ n) : roundedPlace m ≤ roundedPlace n := by
  by_cases hm : m = 0
  · rw [hm, roundedPlace, if_pos rfl]
    exact roundedPlace_nonneg n
  · have hn : n ≠ 0 := by
      omega
    have hm53 := significand_le_two_pow (two_pow_le_shiftLeft hm)
    have hn52 := le_significand (two_pow_le_shiftLeft hn)
    rw [roundedPlace_of_ne_zero hm, roundedPlace_of_ne_zero hn, placeOf, placeOf]
    rcases Nat.lt_or_eq_of_le (log2_le_log2 hm h) with hlog | hlog
    · -- a carry takes the smaller integer up to the first place of the next exponent
      omega
    · have hsame : (m <<< 53).log2 = (n <<< 53).log2 := by
        rw [log2_shiftLeft hm, log2_shiftLeft hn, hlog]
      have hshift : m <<< 53 ≤ n <<< 53 := by
        rw [Nat.shiftLeft_eq, Nat.shiftLeft_eq]
        omega
      have hle := significand_le hsame hshift
      omega

/-- **Below `2 ^ 53` they stay apart.** -/
theorem roundedPlace_lt (h : m < n) (hm53 : m < 2 ^ 53) : roundedPlace m < roundedPlace n := by
  have hn : n ≠ 0 := by
    omega
  by_cases hm : m = 0
  · rw [hm, roundedPlace, if_pos rfl]
    exact roundedPlace_pos hn
  · obtain ⟨-, hbits⟩ := bits_shiftLeft hm hm53
    have hn52 := le_significand (two_pow_le_shiftLeft hn)
    have hlogm : m.log2 < 53 := log2_lt_of_lt (by decide) hm53
    rw [roundedPlace_of_ne_zero hm, roundedPlace_of_ne_zero hn, significand_small hm hm53, placeOf,
      placeOf]
    rcases Nat.lt_or_eq_of_le (log2_le_log2 hm (Nat.le_of_lt h)) with hlog | hlog
    · omega
    · have hn53 : n < 2 ^ 53 := (Nat.log2_lt hn).mp (by omega)
      have hshift : m <<< (52 - m.log2) < n <<< (52 - n.log2) := by
        rw [hlog, Nat.shiftLeft_eq, Nat.shiftLeft_eq]
        exact Nat.mul_lt_mul_of_pos_right h (Nat.two_pow_pos _)
      rw [significand_small hn hn53]
      omega

/-! ### From integers to doubles -/

theorem unpack_one :
    ∃ hm, (Float.ofBits 0x3FF0000000000000).toModel.unpack = .finite .positive (2 ^ 52) (-52) hm :=
  ⟨by decide, by rfl⟩

/-- A number of 53 bits is not changed by rounding, whatever zeros there are behind it. -/
theorem round_exact {e : Int} (sign : Sign) (hlow : 2 ^ 52 ≤ m) (hhigh : m < 2 ^ 53)
    (he : -1074 ≤ e) (s : Nat) :
    ∃ hm, roundWithAccuracy .binary64 sign (m * 2 ^ s) e .exact = .finite sign m (e + s) hm := by
  have hwhole : 2 ^ 52 ≤ m * 2 ^ s :=
    Nat.le_trans hlow (Nat.le_mul_of_pos_right _ (Nat.two_pow_pos s))
  have hlog : (m * 2 ^ s).log2 - 52 = s := by
    rw [log2_mul_two_pow (by omega), log2_eq_of_bits hlow hhigh]
    omega
  have hexact := significand_exact hlow hhigh s
  obtain ⟨q, k, hq, hround, ⟨rfl, rfl, -⟩ | ⟨-, -, hcarry⟩⟩ := round_eq sign hwhole he
  · refine ⟨by omega, hround.trans (finite_eq rfl hexact ?_)⟩
    rw [hlog, Int.natCast_zero, Int.add_zero]
  · omega

/-- The zeros that a small integer gets behind it are not rounded off again. -/
theorem round_small (h : n ≠ 0) (hn : n < 2 ^ 53) :
    ∃ hm, UnpackedFloat.round .binary64 .positive n 0 =
      .finite .positive (n <<< (52 - n.log2)) (n.log2 - 52) hm := by
  obtain ⟨hlow, hhigh⟩ := bits_shiftLeft h hn
  have hlog : n.log2 < 53 := log2_lt_of_lt (by decide) hn
  obtain ⟨hm, hround⟩ := round_exact (e := n.log2 - 52) .positive hlow hhigh (by omega) 0
  rw [Nat.pow_zero, Nat.mul_one] at hround
  have hsteps : ∃ s, s = (0 - max ((n.log2 : Int) + 1 + 0 - 53) (-1074)).toNat ∧
      UnpackedFloat.round .binary64 .positive n 0 =
        roundWithAccuracy .binary64 .positive (n <<< s) (0 - s) .exact := ⟨_, rfl, rfl⟩
  obtain ⟨s, hs, hsteps⟩ := hsteps
  obtain rfl : s = 52 - n.log2 := by
    omega
  have hexponent : (0 : Int) - (52 - n.log2 : Nat) = n.log2 - 52 := by
    omega
  rw [hsteps, hexponent]
  exact ⟨hm, hround.trans (finite_eq rfl rfl (Int.add_zero _))⟩

theorem ofUInt64_eq (h : n ≠ 0) (hn : n < UInt64.size) :
    ofUInt64 .binary64 n.toUInt64 = UnpackedFloat.round .binary64 .positive n 0 := by
  have hword : n.toUInt64.toNat = n := UInt64.toNat_ofNat_of_lt hn
  have hpos : compare (n : Int) 0 = .gt := Std.compare_eq_gt.mpr (by omega)
  simp only [ofUInt64, ofNat, ofInt, UnpackedFloat.normalize, hword, hpos, Int.toNat_natCast]

/-- A small integer becomes a double with the bits that it has. -/
theorem unpack_toFloat (h : n ≠ 0) (hn : n < 2 ^ 53) :
    ∃ hm, n.toUInt64.toFloat.toModel.unpack =
      .finite .positive (n <<< (52 - n.log2)) (n.log2 - 52) hm := by
  obtain ⟨hlow, hhigh⟩ := bits_shiftLeft h hn
  have hlog : n.log2 < 53 := log2_lt_of_lt (by decide) hn
  obtain ⟨hm, hround⟩ := round_small h hn
  refine ⟨hm, ?_⟩
  show unpack .binary64 (pack .binary64 (ofUInt64 .binary64 n.toUInt64)) = _
  rw [ofUInt64_eq h (Nat.lt_trans hn (by decide)), hround]
  exact unpack_pack .positive hm ⟨hhigh, by omega, by omega, .inl hlow⟩ hlow

/-- A number of 53 bits is found again in its place. -/
theorem standsAt_pack {place e : Int} (hm : 0 < m) (h : IsDouble m e) (hlow : 2 ^ 52 ≤ m)
    (hplace : placeOf m e = place) :
    StandsAt place (unpack .binary64 (pack .binary64 (.finite .positive m e hm))) := by
  rw [unpack_pack .positive hm h hlow]
  exact ⟨m, e, hm, rfl, h, hlow, hplace⟩

theorem standsAt_small (h : n ≠ 0) (hn : n < 2 ^ 53) :
    StandsAt (roundedPlace n) (Float.ofNat n).toModel.unpack := by
  obtain ⟨hlow, hhigh⟩ := bits_shiftLeft h hn
  have hlog : n.log2 < 53 := log2_lt_of_lt (by decide) hn
  obtain ⟨hm, htoFloat⟩ := unpack_toFloat h hn
  obtain ⟨hm', hone⟩ := unpack_one
  obtain ⟨hm'', hround⟩ := round_exact (e := n.log2 - 52 + -52) (.positive * .positive) hlow hhigh
    (by omega) 52
  have hproduct : (Float.ofNat n).toModel.unpack =
      unpack .binary64 (pack .binary64 (.finite .positive (n <<< (52 - n.log2))
        (n.log2 - 52 + -52 + (52 : Nat)) hm'')) := by
    show (Float.ofScientific n false 0).toModel.unpack = _
    rw [Float.ofScientific, dif_pos ⟨hn, by decide⟩]
    show unpack .binary64 (pack .binary64 (UnpackedFloat.mul .binary64
      n.toUInt64.toFloat.toModel.unpack (Float.ofBits 0x3FF0000000000000).toModel.unpack)) = _
    rw [htoFloat, hone]
    exact congrArg (fun x => unpack .binary64 (pack .binary64 x)) hround
  rw [hproduct]
  refine standsAt_pack hm'' ⟨hhigh, by omega, by omega, .inl hlow⟩ hlow ?_
  rw [roundedPlace_of_ne_zero h, significand_small h hn]
  congr 1
  omega

theorem standsAt_large (h : 2 ^ 53 ≤ n) (hn : n < UInt64.size) :
    StandsAt (roundedPlace n) (Float.ofNat n).toModel.unpack := by
  have hne : n ≠ 0 := by
    omega
  have hlow := two_pow_le_shiftLeft hne
  have hlog : (n <<< 53).log2 = n.log2 + 53 := log2_shiftLeft hne 53
  have hlogn : n.log2 < 64 := log2_lt_of_lt (by decide) hn
  have hslow : (Float.ofNat n).toModel.unpack = unpack .binary64 (pack .binary64
      (roundWithAccuracy .binary64 .positive (n <<< 53) (-53) .exact)) := by
    show (Float.ofScientific n false 0).toModel.unpack = _
    rw [Float.ofScientific, dif_neg (by omega)]
    show unpack .binary64 (pack .binary64 (ofScientific .binary64 n (0 : Nat))) = _
    rw [ofScientific_eq hne (by decide), Nat.pow_zero, Nat.mul_one]
  obtain ⟨q, k, hq, hround, hcarry⟩ := round_eq (e := -53) .positive hlow (by decide)
  have hbits := le_significand hlow
  rw [hslow, hround]
  refine standsAt_pack hq ⟨by omega, by omega, by omega, .inl (by omega)⟩ (by omega) ?_
  rw [roundedPlace_of_ne_zero hne, placeOf, placeOf]
  omega

theorem standsAt_ofNat (h : n ≠ 0) (hn : n < UInt64.size) :
    StandsAt (roundedPlace n) (Float.ofNat n).toModel.unpack := by
  by_cases hsmall : n < 2 ^ 53
  · exact standsAt_small h hsmall
  · exact standsAt_large (Nat.le_of_not_lt hsmall) hn

end Naturals

/-! ### Integers with a sign -/

/-- The place that an integer with a sign gets among the doubles. -/
def integerPlace : Int → Int
  | .ofNat n => roundedPlace n
  | .negSucc n => -roundedPlace (n + 1)

section Integers

variable {m n : Int}

/-- Integers become the doubles in their places. -/
theorem placeOfFloat?_ofInt (h : n.natAbs < UInt64.size) :
    placeOfFloat? (Float.ofInt n) = some (integerPlace n) := by
  cases n with
  | ofNat n =>
    by_cases hn : n = 0
    · rw [hn]
      decide +kernel
    · obtain ⟨m, e, hm, hx, -, -, hplace⟩ := standsAt_ofNat hn h
      show place? (Float.ofNat n).toModel.unpack = some (roundedPlace n)
      rw [hx, ← hplace]
      rfl
  | negSucc n =>
    obtain ⟨m, e, hm, hx, hdouble, hlow, hplace⟩ := standsAt_ofNat n.succ_ne_zero h
    show place? (unpack .binary64 (pack .binary64 (Float.ofNat (n + 1)).toModel.unpack.neg)) =
      some (-roundedPlace (n + 1))
    rw [hx, ← hplace]
    show place? (unpack .binary64 (pack .binary64 (.finite .negative m e hm))) = _
    rw [unpack_pack .negative hm hdouble hlow]
    rfl

/-- **Integers with signs stay in their order.** -/
theorem integerPlace_le (h : m ≤ n) : integerPlace m ≤ integerPlace n := by
  cases m with
  | ofNat m =>
    cases n with
    | ofNat n => exact roundedPlace_le (Int.ofNat_le.mp h)
    | negSucc n =>
      exact absurd (Int.le_trans (Int.natCast_nonneg m) h) (Int.not_le.mpr (Int.negSucc_lt_zero n))
  | negSucc m =>
    have hm : 0 < roundedPlace (m + 1) := roundedPlace_pos m.succ_ne_zero
    cases n with
    | ofNat n =>
      have hn := roundedPlace_nonneg n
      rw [integerPlace, integerPlace]
      omega
    | negSucc n =>
      have hle := roundedPlace_le (m := n + 1) (n := m + 1) (by omega)
      rw [integerPlace, integerPlace]
      omega

theorem eq_or_large_of_roundedPlace_eq {m n : Nat} (h : roundedPlace m = roundedPlace n) :
    m = n ∨ 2 ^ 53 ≤ m ∧ 2 ^ 53 ≤ n := by
  rcases Nat.lt_trichotomy m n with hlt | heq | hgt
  · by_cases hm : m < 2 ^ 53
    · exact absurd h (Int.ne_of_lt (roundedPlace_lt hlt hm))
    · omega
  · exact .inl heq
  · by_cases hn : n < 2 ^ 53
    · exact absurd h.symm (Int.ne_of_lt (roundedPlace_lt hgt hn))
    · omega

/-- **Only large integers become equal.** -/
theorem eq_or_large_of_integerPlace_eq (h : integerPlace m = integerPlace n) :
    m = n ∨ 2 ^ 53 ≤ m.natAbs ∧ 2 ^ 53 ≤ n.natAbs := by
  have hsign : ∀ m n : Nat, integerPlace (.ofNat m) ≠ integerPlace (.negSucc n) := by
    intro m n
    have hm := roundedPlace_nonneg m
    have hn : 0 < roundedPlace (n + 1) := roundedPlace_pos n.succ_ne_zero
    rw [integerPlace, integerPlace]
    omega
  cases m with
  | ofNat m =>
    cases n with
    | ofNat n =>
      rcases eq_or_large_of_roundedPlace_eq h with rfl | hlarge
      · exact .inl rfl
      · exact .inr hlarge
    | negSucc n => exact absurd h (hsign m n)
  | negSucc m =>
    cases n with
    | ofNat n => exact absurd h.symm (hsign n m)
    | negSucc n =>
      rcases eq_or_large_of_roundedPlace_eq (Int.neg_inj.mp h) with heq | hlarge
      · exact .inl (congrArg Int.negSucc (Nat.succ_inj.mp heq))
      · exact .inr hlarge

end Integers

end QueryTrace.Decimal

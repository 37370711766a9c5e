/-
The text of a real says which real it is.

A finite double is shown as the shortest decimal that stands for it.  A decimal stands for one
double only: the reals that one double stands for lie between its neighbours, and where two such
intervals meet, one of them does not hold its end.  So the double can be told from the decimal, and
the decimal can be told from the text.

* `Neighbourhood.Holds` — the reals that a double stands for, and `contains_iff`;
* `exists_decimal`, **`shortest_holds`** — every double is a decimal, so the search for a shorter
  one comes to an end with a decimal that stands for the double;
* `Proper` — the digits of a double, and **`eq_of_holds`**: no real stands for two doubles;
* `exists_spelling_withPoint` — a text in decimal notation is read as the decimal it was made of;
* `readSigned?_finite` — so the text of a double is read as a number that stands for it;
* `ofFloat_inj` — a double is what its bits say, with one double that is no number;
* **`showReal_inj`** — two reals are the same if their texts are.

Design notes: ends of intervals are compared as rationals, where `2 ^ q` and `10 ^ e` have negative
exponents.  Whether a real is at an end is decided by the parity of the digits: of two neighbours
with one exponent only one is even, and below a power of two the digits are `2 ^ 53 - 1`, which is
odd.
-/
import Mathlib.Algebra.Order.Field.Power
import Mathlib.Data.Rat.Cast.Order
import Mathlib.Tactic.FieldSimp
import Mathlib.Tactic.Positivity
import Mathlib.Tactic.Ring
import QueryTrace.Proofs.FiniteReals
import QueryTrace.Proofs.NumberTexts

namespace QueryTrace.Decimal

/-! ### Numbers in a neighbourhood -/

theorem zpow_mul_pow_toNat {b : ℚ} (hb : b ≠ 0) (z : ℤ) :
    b ^ z * b ^ (-z).toNat = b ^ z.toNat := by
  rw [← zpow_natCast, ← zpow_natCast, ← zpow_add₀ hb]
  congr 1
  omega

namespace Neighbourhood

variable {n : Neighbourhood} {d : Nat} {e : Int}

/-- The factor that makes natural numbers of the unit and of the power of ten. -/
def measure (n : Neighbourhood) (e : Int) : ℚ :=
  10 ^ (-e).toNat * 2 ^ (-n.scale).toNat

theorem measure_pos (n : Neighbourhood) (e : Int) : 0 < n.measure e := by
  unfold measure
  positivity

theorem cast_unit (n : Neighbourhood) (e : Int) :
    (n.unit e : ℚ) = 2 ^ n.scale * n.measure e := by
  have htwo := zpow_mul_pow_toNat (b := 2) two_ne_zero n.scale
  simp only [unit, measure, Nat.pow_eq]
  push_cast
  rw [← htwo]
  ring

theorem cast_gridStep (n : Neighbourhood) (e : Int) :
    (n.gridStep e : ℚ) = 10 ^ e * n.measure e := by
  have hten := zpow_mul_pow_toNat (b := 10) (by norm_num) e
  simp only [gridStep, measure, Nat.pow_eq]
  push_cast
  rw [← hten]
  ring

theorem unit_le_gridStep {a : Nat} :
    a * n.unit e ≤ d * n.gridStep e ↔ (a * 2 ^ n.scale : ℚ) ≤ d * 10 ^ e := by
  rw [← Nat.cast_le (α := ℚ)]
  push_cast
  rw [cast_unit, cast_gridStep, ← mul_assoc, ← mul_assoc]
  exact mul_le_mul_iff_left₀ (n.measure_pos e)

theorem gridStep_le_unit {a : Nat} :
    d * n.gridStep e ≤ a * n.unit e ↔ (d * 10 ^ e : ℚ) ≤ a * 2 ^ n.scale := by
  rw [← Nat.cast_le (α := ℚ)]
  push_cast
  rw [cast_unit, cast_gridStep, ← mul_assoc, ← mul_assoc]
  exact mul_le_mul_iff_left₀ (n.measure_pos e)

/-- Is the number in the neighbourhood? -/
structure Holds (n : Neighbourhood) (x : ℚ) : Prop where
  low_le : n.low * 2 ^ n.scale ≤ x
  le_high : x ≤ n.high * 2 ^ n.scale
  closed_of_low : x ≤ n.low * 2 ^ n.scale → n.closed = true
  closed_of_high : n.high * 2 ^ n.scale ≤ x → n.closed = true

theorem contains_iff : n.contains d e = true ↔ n.Holds (d * 10 ^ e) := by
  simp only [contains]
  split
  · next hclosed =>
    rw [Bool.and_eq_true, decide_eq_true_eq, decide_eq_true_eq, unit_le_gridStep, gridStep_le_unit]
    exact ⟨fun h => ⟨h.1, h.2, fun _ => hclosed, fun _ => hclosed⟩, fun h => ⟨h.low_le, h.le_high⟩⟩
  · next hopen =>
    rw [Bool.and_eq_true, decide_eq_true_eq, decide_eq_true_eq, ← not_le, ← not_le,
      unit_le_gridStep, gridStep_le_unit]
    constructor
    · rintro ⟨hlow, hhigh⟩
      exact ⟨(not_le.mp hlow).le, (not_le.mp hhigh).le, fun h => absurd h hlow,
        fun h => absurd h hhigh⟩
    · intro h
      exact ⟨fun hlow => hopen (h.closed_of_low hlow), fun hhigh => hopen (h.closed_of_high hhigh)⟩

/-! ### The search ends -/

/-- A grid with the middle on it has a point. -/
theorem onGrid_of_exact (tie : Tie) (hlow : n.low < n.mid) (hhigh : n.mid < n.high)
    (h : (d * 10 ^ e : ℚ) = n.mid * 2 ^ n.scale) : (n.onGrid tie e).isSome = true := by
  have hexact : n.mid * n.unit e = d * n.gridStep e :=
    Nat.le_antisymm (unit_le_gridStep.mpr h.ge) (gridStep_le_unit.mpr h.le)
  have hpos : 0 < n.gridStep e := Nat.mul_pos (Nat.pow_pos (by decide)) (Nat.pow_pos (by decide))
  have hunit : (0 : ℚ) < 2 ^ n.scale := zpow_pos two_pos _
  have hcontains : n.contains d e = true := by
    rw [contains_iff, h]
    have hlow' : (n.low : ℚ) < n.mid := Nat.cast_lt.mpr hlow
    have hhigh' : (n.mid : ℚ) < n.high := Nat.cast_lt.mpr hhigh
    have h₁ := mul_lt_mul_of_pos_right hlow' hunit
    have h₂ := mul_lt_mul_of_pos_right hhigh' hunit
    exact ⟨h₁.le, h₂.le, fun hle => absurd hle h₁.not_ge, fun hle => absurd hle h₂.not_ge⟩
  simp only [onGrid, hexact, Nat.mul_div_cancel _ hpos, hcontains]
  split
  · simp_all
  · rfl
  · rfl
  · split
    · rfl
    · split
      · rfl
      · split <;> rfl

/-- The search does not go past such a grid. -/
theorem descend_isSome {tie : Tie} {steps : Nat} {top : Int}
    (h : (n.onGrid tie (top - steps)).isSome = true) : (n.descend tie steps top).isSome = true := by
  induction steps generalizing top with
  | zero =>
    rw [descend, Option.isSome_map]
    simpa using h
  | succ steps ih =>
    -- a coarser grid may have a point as well, and then the search ends there
    have hnext : top - 1 - (steps : Int) = top - (steps + 1 : Nat) := by
      omega
    rw [descend]
    split
    · rfl
    · refine ih ?_
      rwa [hnext]

/-- The lower end is a quarter below a power of two, and half a place below anything else. -/
theorem ofDouble_low (m : Nat) (q : Int) :
    ((ofDouble m q).low = 4 * m - 1 ∧ m = 2 ^ 52) ∨
    ((ofDouble m q).low = 4 * m - 2 ∧ ¬(m = 2 ^ 52 ∧ -1074 < q)) := by
  by_cases h : m = 2 ^ 52 ∧ -1074 < q
  · exact .inl ⟨if_pos h, h.1⟩
  · exact .inr ⟨if_neg h, h⟩

theorem ofDouble_closed {m : Nat} {q : Int} : (ofDouble m q).closed = true ↔ m % 2 = 0 :=
  beq_iff_eq

theorem ofDouble_bounds {m : Nat} (hm : 0 < m) (q : Int) :
    (ofDouble m q).low < (ofDouble m q).mid ∧ (ofDouble m q).mid < (ofDouble m q).high := by
  simp only [ofDouble]
  constructor
  · split <;> omega
  · omega

end Neighbourhood

/-- Every double is a decimal. -/
theorem exists_decimal (m : Nat) (q : Int) :
    ∃ d : Nat, (d * 10 ^ min q 0 : ℚ) = m * 2 ^ q := by
  rcases le_total 0 q with hq | hq
  · refine ⟨m * 2 ^ q.toNat, ?_⟩
    rw [min_eq_right hq]
    push_cast
    rw [mul_one, ← zpow_natCast, Int.toNat_of_nonneg hq]
  · -- half of a power of ten is five times the next one
    refine ⟨m * 5 ^ (-q).toNat, ?_⟩
    rw [min_eq_left hq]
    have hfive : (5 : ℚ) ^ (-q).toNat = 5 ^ (-q) := by
      rw [← zpow_natCast, Int.toNat_of_nonneg (by omega)]
    have hten : (10 : ℚ) ^ q = 2 ^ q * 5 ^ q := by
      rw [← mul_zpow]
      norm_num
    push_cast
    rw [hfive, hten, zpow_neg]
    field_simp

/-- **The shortest decimal of a positive real stands for it.** -/
theorem shortest_holds (tie : Tie) {m : Nat} (hm : 0 < m) (q : Int) :
    (Neighbourhood.ofDouble m q).Holds ((shortest tie m q).1 * 10 ^ (shortest tie m q).2) := by
  obtain ⟨hlow, hhigh⟩ := Neighbourhood.ofDouble_bounds hm q
  obtain ⟨d, hd⟩ := exists_decimal m q
  have hmid : (d * 10 ^ min q 0 : ℚ) =
      (Neighbourhood.ofDouble m q).mid * 2 ^ (Neighbourhood.ofDouble m q).scale := by
    rw [hd]
    simp only [Neighbourhood.ofDouble]
    push_cast
    rw [zpow_sub₀ two_ne_zero]
    norm_num
    ring
  have hgrid := Neighbourhood.onGrid_of_exact tie hlow hhigh hmid
  have htop : topExponent m q - (topExponent m q - min q 0).toNat = min q 0 := by
    have hnonneg : 0 ≤ topExponent m q := Int.natCast_nonneg _
    omega
  rw [← htop] at hgrid
  have hfound := Neighbourhood.descend_isSome hgrid
  obtain ⟨found, hfound⟩ := Option.isSome_iff_exists.mp hfound
  have hshortest : shortest tie m q = found := by
    rw [shortest, hfound]
    rfl
  rw [hshortest]
  exact Neighbourhood.contains_iff.mp (Neighbourhood.descend_inside hfound)

/-! ### A number stands for one double -/

/-- Are these the digits of a double?  There are 53 bits, and the first of them is set unless the
exponent is the least one. -/
structure Proper (m : Nat) (q : Int) : Prop where
  lt : m < 2 ^ 53
  least : -1074 ≤ q
  le : -1074 < q → 2 ^ 52 ≤ m

section Apart

variable {m m' : Nat} {q q' : Int} {x : ℚ}

/-- A number in two neighbourhoods is between the lower end of the one and the upper end of the
other, and if these are equal, both neighbourhoods hold them. -/
theorem Neighbourhood.Holds.meet {n n' : Neighbourhood} {k : Nat} (h : n.Holds x) (h' : n'.Holds x)
    (hk : n'.scale = n.scale + k) :
    n'.low * 2 ^ k ≤ n.high ∧
    (n'.low * 2 ^ k = n.high → n.closed = true ∧ n'.closed = true) := by
  have hunit : (0 : ℚ) < 2 ^ n.scale := zpow_pos two_pos _
  have hlow : (n'.low * 2 ^ n'.scale : ℚ) = (n'.low * 2 ^ k : Nat) * 2 ^ n.scale := by
    rw [hk, zpow_add₀ two_ne_zero, zpow_natCast]
    push_cast
    ring
  have hle := h'.low_le
  rw [hlow] at hle
  have hcast := le_of_mul_le_mul_right (hle.trans h.le_high) hunit
  refine ⟨Nat.cast_le.mp hcast, fun hends => ?_⟩
  rw [hends] at hle hlow
  exact ⟨h.closed_of_high hle, h'.closed_of_low (by rw [hlow]; exact h.le_high)⟩

/-- Of two numbers with one exponent that are next to each other, one is odd. -/
theorem not_holds_of_lt (hm : m < m') (h : (Neighbourhood.ofDouble m q).Holds x)
    (h' : (Neighbourhood.ofDouble m' q).Holds x) : False := by
  obtain ⟨hle, hends⟩ := h.meet h' (k := 0) (by simp [Neighbourhood.ofDouble])
  rw [Neighbourhood.ofDouble_closed, Neighbourhood.ofDouble_closed] at hends
  have hhigh : (Neighbourhood.ofDouble m q).high = 4 * m + 2 := rfl
  have hlow := Neighbourhood.ofDouble_low m' q
  omega

/-- What has the smaller exponent is below `2 ^ 53` in its own units, and the other number is not.
The last one below is odd. -/
theorem not_holds_of_exponent_lt (hm : Proper m q) (hm' : Proper m' q') (hq : q < q')
    (h : (Neighbourhood.ofDouble m q).Holds x) (h' : (Neighbourhood.ofDouble m' q').Holds x) :
    False := by
  have hscale : (Neighbourhood.ofDouble m' q').scale =
      (Neighbourhood.ofDouble m q).scale + (q' - q).toNat := by
    simp only [Neighbourhood.ofDouble]
    omega
  obtain ⟨hle, hends⟩ := h.meet h' hscale
  have hdouble : (Neighbourhood.ofDouble m' q').low * 2 ≤
      (Neighbourhood.ofDouble m' q').low * 2 ^ (q' - q).toNat :=
    Nat.mul_le_mul_left _ (Nat.le_pow (by omega))
  rw [Neighbourhood.ofDouble_closed] at hends
  have hhigh : (Neighbourhood.ofDouble m q).high = 4 * m + 2 := rfl
  have hlow := Neighbourhood.ofDouble_low m' q'
  have hleast := hm.least
  have hlt := hm.lt
  have hnormal := hm'.le (by omega)
  -- so the ends are equal, and then the first number would have to be even
  have hodd : m = 2 ^ 53 - 1 := by
    omega
  have heven := (hends (by omega)).1
  omega

/-- **Two doubles are the same if one number stands for both.** -/
theorem eq_of_holds (hm : Proper m q) (hm' : Proper m' q')
    (h : (Neighbourhood.ofDouble m q).Holds x) (h' : (Neighbourhood.ofDouble m' q').Holds x) :
    m = m' ∧ q = q' := by
  rcases lt_trichotomy q q' with hq | rfl | hq
  · exact (not_holds_of_exponent_lt hm hm' hq h h').elim
  · rcases lt_trichotomy m m' with hlt | rfl | hlt
    · exact (not_holds_of_lt hlt h h').elim
    · exact ⟨rfl, rfl⟩
    · exact (not_holds_of_lt hlt h' h).elim
  · exact (not_holds_of_exponent_lt hm' hm hq h' h).elim

end Apart

/-! ### Reading the text -/

/-- The number that is spelled. -/
def Spelling.value (s : Spelling) : ℚ :=
  ofDigits (s.whole ++ s.fraction) * 10 ^ (s.exponent - s.fraction.length)

theorem ofDigits_append (ds es : List Char) :
    ofDigits (ds ++ es) = 10 ^ es.length * ofDigits ds + ofDigits es := by
  show Nat.ofDigitChars 10 (ds ++ es) 0 = _
  rw [Nat.ofDigitChars_append, Nat.ofDigitChars_eq_ofDigitChars_zero]
  rfl

theorem ofDigits_toDigits (n : Nat) : ofDigits (Nat.toDigits 10 n) = n :=
  Nat.ofDigitChars_ten_toDigits

theorem ofDigits_zeros (n : Nat) : ofDigits (List.replicate n '0') = 0 := by
  show Nat.ofDigitChars 10 _ 0 = 0
  rw [Nat.ofDigitChars_replicate_zero, Nat.mul_zero]

section Spellings

variable {whole fraction : List Char}

theorem readSpelling?_whole (hne : whole ≠ []) (h : ∀ c ∈ whole, c.isDigit = true) :
    readSpelling? whole = some ⟨whole, [], 0⟩ := by
  have hsplit : splitDigits (whole ++ []) = (whole, []) := splitDigits_of_digits h nofun
  rw [List.append_nil] at hsplit
  rw [readSpelling?, hsplit]
  simp [hne, readExponent?]

theorem readSpelling?_point (hne : fraction ≠ []) (h : ∀ c ∈ whole, c.isDigit = true)
    (h' : ∀ c ∈ fraction, c.isDigit = true) :
    readSpelling? (whole ++ '.' :: fraction) = some ⟨whole, fraction, 0⟩ := by
  have hpoint : ∀ c ∈ ('.' :: fraction).head?, c.isDigit = false := by
    rintro _ ⟨⟩
    rfl
  have hsplit := splitDigits_of_digits h hpoint
  have hsplit' : splitDigits (fraction ++ []) = (fraction, []) := splitDigits_of_digits h' nofun
  rw [List.append_nil] at hsplit'
  rw [readSpelling?, hsplit]
  simp [hsplit', hne, readExponent?]

end Spellings

/-- The text of a decimal is read as that decimal. -/
theorem exists_spelling_withPoint (d : Nat) (e : Int) :
    ∃ s, readSpelling? (withPoint false d e).toList = some s ∧ s.value = d * 10 ^ e := by
  have hds := digits_toDigits d
  have hvalue := ofDigits_toDigits d
  generalize hlen : (Nat.toDigits 10 d).length = len
  rw [withPoint, hlen]
  -- the point stands behind all digits, in front of them, or among them
  split
  · next he =>
    have hread := readSpelling?_whole (List.append_ne_nil_of_left_ne_nil hds.nonempty _)
      (List.forall_mem_append.mpr ⟨hds.digits, isDigit_of_mem_replicate (n := e.toNat)⟩)
    refine ⟨_, by simpa [digits, zeros] using hread, ?_⟩
    simp only [Spelling.value, List.append_nil, ofDigits_append, ofDigits_zeros, hvalue,
      List.length_replicate, List.length_nil]
    push_cast
    rw [← zpow_natCast, Int.toNat_of_nonneg he]
    simp
    ring
  · split
    · next he hwhole =>
      generalize hk : (-(len + e)).toNat = k
      have hread := readSpelling?_point (List.append_ne_nil_of_right_ne_nil _ hds.nonempty)
        digits_zero.digits
        (List.forall_mem_append.mpr ⟨isDigit_of_mem_replicate (n := k), hds.digits⟩)
      refine ⟨_, by simpa [digits, zeros] using hread, ?_⟩
      have hexponent : (0 : Int) - (List.replicate k '0' ++ Nat.toDigits 10 d).length = e := by
        rw [List.length_append, List.length_replicate, hlen]
        omega
      have hzero : ofDigits ['0'] = 0 := rfl
      simp only [Spelling.value, hexponent, ofDigits_append, ofDigits_zeros, hvalue, hzero,
        Nat.mul_zero, Nat.zero_add]
    · next he hwhole =>
      generalize hk : (len + e).toNat = k
      have hback : (Nat.toDigits 10 d).drop k ≠ [] := by
        rw [ne_eq, List.drop_eq_nil_iff]
        omega
      have hread := readSpelling?_point hback
        (fun c hc => hds.digits c (List.mem_of_mem_take (i := k) hc))
        (fun c hc => hds.digits c (List.mem_of_mem_drop hc))
      refine ⟨_, by simpa using hread, ?_⟩
      have hexponent : (0 : Int) - ((Nat.toDigits 10 d).drop k).length = e := by
        rw [List.length_drop, hlen]
        omega
      rw [Spelling.value, List.take_append_drop, hvalue, hexponent]

theorem dash_not_mem_withPoint (d : Nat) (e : Int) : '-' ∉ (withPoint false d e).toList := by
  have hds : '-' ∉ Nat.toDigits 10 d := fun h =>
    absurd ((digits_toDigits d).digits _ h) (by decide)
  have htake : ∀ k, '-' ∉ (Nat.toDigits 10 d).take k := fun k h => hds (List.mem_of_mem_take h)
  have hdrop : ∀ k, '-' ∉ (Nat.toDigits 10 d).drop k := fun k h => hds (List.mem_of_mem_drop h)
  rw [withPoint]
  split
  · simp [digits, zeros, hds]
  · split
    · simp [digits, zeros, hds]
    · simp [htake, hdrop]

/-- What a text that is read may stand for: zero for zero, and a number of the neighbourhood
otherwise. -/
def Means (m : Nat) (q : Int) (x : ℚ) : Prop :=
  (m = 0 ∧ x = 0) ∨ (0 < m ∧ (Neighbourhood.ofDouble m q).Holds x)

theorem pos_of_holds {m : Nat} {q : Int} {x : ℚ} (hm : 0 < m)
    (h : (Neighbourhood.ofDouble m q).Holds x) : 0 < x := by
  have hlow : (0 : ℚ) < (Neighbourhood.ofDouble m q).low := Nat.cast_pos.mpr (ofDouble_low_pos hm q)
  exact (mul_pos hlow (zpow_pos two_pos _)).trans_le h.low_le

theorem eq_of_means {m m' : Nat} {q q' : Int} {x : ℚ} (hm : Proper m q) (hm' : Proper m' q')
    (h : Means m q x) (h' : Means m' q' x) : m = m' ∧ q = q' := by
  rcases h with ⟨rfl, rfl⟩ | ⟨hpos, h⟩
  · rcases h' with ⟨rfl, -⟩ | ⟨hpos', h'⟩
    · -- zero has the least exponent
      have hleast : ∀ {q : Int}, Proper 0 q → q = -1074 := fun h => by
        have hle := h.le
        have hlow := h.least
        omega
      exact ⟨rfl, (hleast hm).trans (hleast hm').symm⟩
    · exact absurd (pos_of_holds hpos' h') (lt_irrefl 0)
  · rcases h' with ⟨rfl, rfl⟩ | ⟨-, h'⟩
    · exact absurd (pos_of_holds hpos h) (lt_irrefl 0)
    · exact eq_of_holds hm hm' h h'

/-- Reads a number behind its sign, if it has one. -/
def readSigned? (cs : List Char) : Option (Bool × Spelling) :=
  match cs with
  | '-' :: ds => (readSpelling? ds).map (true, ·)
  | ds => (readSpelling? ds).map (false, ·)

theorem readSpelling?_minus (cs : List Char) : readSpelling? ('-' :: cs) = none := by
  have hsplit : splitDigits ('-' :: cs) = ([], '-' :: cs) := rfl
  rw [readSpelling?, hsplit]
  rfl

theorem readSigned?_sign {cs : List Char} {s : Spelling} (negative : Bool)
    (h : readSpelling? cs = some s) :
    readSigned? ((if negative then "-" else "").toList ++ cs) = some (negative, s) := by
  cases negative with
  | true =>
    show (readSpelling? cs).map _ = _
    rw [h]
    rfl
  | false =>
    show readSigned? cs = _
    unfold readSigned?
    split
    · rw [readSpelling?_minus] at h
      cases h
    · rw [h]
      rfl

theorem exists_spelling_magnitude (m : Nat) (q : Int) :
    ∃ s, readSpelling? (Value.realFormat.magnitude m q).toList = some s ∧ Means m q s.value := by
  rw [Format.magnitude]
  split
  · next hm =>
    exact ⟨⟨['0'], [], 0⟩, rfl, .inl ⟨hm, by simp [Spelling.value, ofDigits, withDigit]⟩⟩
  · next hm =>
    have hpos := Nat.pos_of_ne_zero hm
    obtain ⟨s, hread, hvalue⟩ := exists_spelling_withPoint (shortest .up m q).1 (shortest .up m q).2
    refine ⟨s, hread, .inr ⟨hpos, ?_⟩⟩
    rw [hvalue]
    exact shortest_holds .up hpos q

/-- The text of a magnitude has no sign. -/
theorem magnitude_unsigned (m : Nat) (q : Int) :
    (Value.realFormat.magnitude m q).toList ≠ [] ∧
    '-' ∉ (Value.realFormat.magnitude m q).toList := by
  constructor
  · obtain ⟨s, hread, -⟩ := exists_spelling_magnitude m q
    intro hnil
    rw [hnil] at hread
    cases hread
  · rw [Format.magnitude]
    split
    · exact (by decide : '-' ∉ "0".toList)
    · exact dash_not_mem_withPoint _ _

/-- **The text of a finite double is read as a number that stands for it.** -/
theorem readSigned?_finite (negative : Bool) (m : Nat) (q : Int) :
    ∃ s, readSigned? (Value.realFormat.finite negative m q).toList = some (negative, s) ∧
      Means m q s.value := by
  obtain ⟨s, hread, hmeans⟩ := exists_spelling_magnitude m q
  refine ⟨s, ?_, hmeans⟩
  rw [Format.finite, String.toList_append]
  exact readSigned?_sign negative hread

/-! ### Fields -/

/-- Sign, exponent and fraction of a double that is a number. -/
def Double.fields : Double → Bool × Nat × Nat
  | .nan => (false, 2047, 1)
  | .infinite negative => (negative, 2047, 0)
  -- without the first of 53 bits the exponent is the least one
  | .finite negative m q => (negative, if m < 2 ^ 52 then 0 else (q + 1075).toNat, m % 2 ^ 52)

theorem fields_ofFields (negative : Bool) {e f : Nat} (hf : f < 2 ^ 52) :
    (Double.ofFields negative e f = .nan ∧ e = 2047 ∧ f ≠ 0) ∨
    (Double.ofFields negative e f ≠ .nan ∧
      (Double.ofFields negative e f).fields = (negative, e, f)) := by
  have hpow : Nat.pow 2 52 = 2 ^ 52 := rfl
  simp only [Double.ofFields, hpow]
  by_cases hones : e = 2047
  · rw [if_pos hones]
    by_cases hzero : f = 0
    · rw [if_pos hzero, Double.fields, hones, hzero]
      exact .inr ⟨by simp, rfl⟩
    · rw [if_neg hzero]
      exact .inl ⟨rfl, hones, hzero⟩
  · rw [if_neg hones]
    by_cases hleast : e = 0
    · rw [if_pos hleast, Double.fields, if_pos hf, Nat.mod_eq_of_lt hf, hleast]
      exact .inr ⟨by simp, rfl⟩
    · have hexponent : ((e : Int) - 1075 + 1075).toNat = e := by
        omega
      rw [if_neg hleast, Double.fields, if_neg (by omega), Nat.add_mod_left, Nat.mod_eq_of_lt hf,
        hexponent]
      exact .inr ⟨by simp, rfl⟩

/-- The fields of a double are found in it, unless it is no number. -/
theorem ofFields_inj {s s' : Bool} {e e' f f' : Nat} (hf : f < 2 ^ 52) (hf' : f' < 2 ^ 52)
    (h : Double.ofFields s e f = Double.ofFields s' e' f') :
    (s = s' ∧ e = e' ∧ f = f') ∨ ((e = 2047 ∧ f ≠ 0) ∧ (e' = 2047 ∧ f' ≠ 0)) := by
  rcases fields_ofFields s hf with ⟨hnan, hx⟩ | ⟨hnumber, hfields⟩
  · rcases fields_ofFields s' hf' with ⟨-, hy⟩ | ⟨hnumber', -⟩
    · exact .inr ⟨hx, hy⟩
    · exact absurd (h.symm.trans hnan) hnumber'
  · rcases fields_ofFields s' hf' with ⟨hnan', -⟩ | ⟨-, hfields'⟩
    · exact absurd (h.trans hnan') hnumber
    · rw [h, hfields', Prod.mk.injEq, Prod.mk.injEq] at hfields
      exact .inl ⟨hfields.1.symm, hfields.2.1.symm, hfields.2.2.symm⟩

theorem proper_ofFields {s negative : Bool} {e f m : Nat} {q : Int} (hf : f < 2 ^ 52)
    (h : Double.ofFields s e f = .finite negative m q) : Proper m q := by
  have hpow : Nat.pow 2 52 = 2 ^ 52 := rfl
  simp only [Double.ofFields, hpow] at h
  split at h
  · split at h <;> cases h
  · split at h
    · cases h
      exact ⟨by omega, by omega, by omega⟩
    · cases h
      exact ⟨by omega, by omega, by omega⟩

theorem bits_eq_of_fields {a b : UInt64}
    (hsign : decide (Nat.pow 2 63 ≤ a.toNat) = decide (Nat.pow 2 63 ≤ b.toNat))
    (hexponent : a.toNat / Nat.pow 2 52 % Nat.pow 2 11 = b.toNat / Nat.pow 2 52 % Nat.pow 2 11)
    (hfraction : a.toNat % Nat.pow 2 52 = b.toNat % Nat.pow 2 52) : a = b := by
  have ha := a.toNat_lt
  have hb := b.toNat_lt
  rw [decide_eq_decide] at hsign
  simp only [Nat.pow_eq] at hsign hexponent hfraction
  have hnat : a.toNat = b.toNat := by
    omega
  exact UInt64.toNat_inj.mp hnat

theorem mantissa_field (b : BitVec 64) :
    b.toNat % Nat.pow 2 52 = (@Float.Model.UnpackedFloat.unpackMantissa .binary64 b).toNat := rfl

/-- There is one double that is no number. -/
theorem bits_of_nan {x : Float} (h : x.toBits.toNat / Nat.pow 2 52 % Nat.pow 2 11 = 2047 ∧
    x.toBits.toNat % Nat.pow 2 52 ≠ 0) :
    x.toBits.toBitVec = Float.Model.UnpackedFloat.packedNaN .binary64 := by
  refine x.toModel.valid.eq_packedNaN ?_ ?_
  · apply BitVec.eq_of_toNat_eq
    rw [← exponent_field]
    exact h.1
  · intro hzero
    have hfield := mantissa_field x.toBits.toBitVec
    exact h.2 (hfield.trans (congrArg BitVec.toNat hzero))

theorem toBits_inj {x y : Float} (h : x.toBits = y.toBits) : x = y := by
  rcases x with ⟨bits, hvalid⟩
  rcases y with ⟨bits', hvalid'⟩
  obtain rfl : bits = bits' := h
  rfl

/-- **A double is what its bits say.** -/
theorem ofFloat_inj {x y : Float} (h : Double.ofFloat x = Double.ofFloat y) : x = y := by
  refine toBits_inj ?_
  rcases ofFields_inj (Nat.mod_lt _ (by decide)) (Nat.mod_lt _ (by decide)) h with
    ⟨hsign, hexponent, hfraction⟩ | ⟨hx, hy⟩
  · exact bits_eq_of_fields hsign hexponent hfraction
  · exact UInt64.toBitVec_inj.mp ((bits_of_nan hx).trans (bits_of_nan hy).symm)

theorem proper_ofFloat {x : Float} {negative : Bool} {m : Nat} {q : Int}
    (h : Double.ofFloat x = .finite negative m q) : Proper m q :=
  proper_ofFields (Nat.mod_lt _ (by decide)) h

end QueryTrace.Decimal

namespace QueryTrace.Value

open Decimal

/-- The word for what is no finite number. -/
def word? : Double → Option String
  | .nan => some "NaN"
  | .infinite negative => some (if negative then "-inf" else "inf")
  | .finite .. => none

/-- The double that a word is for. -/
def ofWord (text : String) : Double :=
  if text = "NaN" then .nan else .infinite (text = "-inf")

theorem ofWord_word {a : Double} {text : String} (h : word? a = some text) : ofWord text = a := by
  cases a with
  | nan =>
    cases h
    rfl
  | infinite negative =>
    cases h
    cases negative <;> rfl
  | finite => cases h

/-- No word is read as a number. -/
theorem readSigned?_word {a : Double} {text : String} (h : word? a = some text) :
    readSigned? text.toList = none := by
  cases a with
  | nan =>
    cases h
    rfl
  | infinite negative =>
    cases h
    cases negative <;> rfl
  | finite => cases h

/-- What the text of a double says: a word, or a number with a sign for which the double stands. -/
inductive Says (text : String) : Double → Prop where
  | word {a : Double} (h : word? a = some text) : Says text a
  | number {negative : Bool} {m : Nat} {q : Int} {s : Spelling} (hm : Proper m q)
    (hread : readSigned? text.toList = some (negative, s)) (hmeans : Means m q s.value) :
    Says text (.finite negative m q)

theorem says_showReal (x : Float) : Says (showReal x) (Double.ofFloat x) := by
  have hproper := @proper_ofFloat x
  unfold showReal
  cases hx : Double.ofFloat x with
  | nan => exact .word rfl
  | infinite negative => exact .word rfl
  | finite negative m q =>
    obtain ⟨s, hread, hmeans⟩ := readSigned?_finite negative m q
    exact .number (hproper hx) hread hmeans

theorem Says.unique {text : String} {a b : Double} (h : Says text a) (h' : Says text b) :
    a = b := by
  cases h with
  | word hword =>
    cases h' with
    | word hword' => exact (ofWord_word hword).symm.trans (ofWord_word hword')
    | number _ hread =>
      rw [readSigned?_word hword] at hread
      cases hread
  | number hm hread hmeans =>
    cases h' with
    | word hword =>
      rw [readSigned?_word hword] at hread
      cases hread
    | number hm' hread' hmeans' =>
      rw [hread] at hread'
      cases hread'
      obtain ⟨rfl, rfl⟩ := eq_of_means hm hm' hmeans hmeans'
      rfl

/-- **Two reals are the same if their texts are.** -/
theorem showReal_inj {x y : Float} (h : showReal x = showReal y) : x = y :=
  ofFloat_inj ((says_showReal x).unique (h ▸ says_showReal y))

end QueryTrace.Value

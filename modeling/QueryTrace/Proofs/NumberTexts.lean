/-
Texts of numbers.

The text of a number is a number of the standard, and it says which kind of number it is of: the
text of an integer is read as that integer, and the text of a real has a point or an exponent, so
that it is read as no integer at all.

* `Digits` holds of runs of digits, and `IsExponent` of what may stand behind them;
* `isUnsignedNumber_point` and `isUnsignedNumber_whole` — the two shapes of a number;
* **`isNumber_toString`** and **`integer?_toString`** — integers;
* **`number_finite`** — reals.

Design notes: a number must not begin with a zero too many, so the digits of a number that is not
zero must not begin with a zero (`head?_toDigits`), and the digits of a real have to be those of a
number that is not zero (`shortest_pos`).
-/
import QueryTrace.Json.Model
import QueryTrace.Json.Reader
import QueryTrace.Text.Blank

namespace QueryTrace

/-! ### Digits -/

namespace Decimal

/-- Is the text made of digits, and of one at least? -/
structure Digits (ds : List Char) : Prop where
  nonempty : ds ≠ []
  digits : ∀ c ∈ ds, c.isDigit = true

theorem digits_toDigits (n : Nat) : Digits (Nat.toDigits 10 n) :=
  ⟨Nat.toDigits_ne_nil, fun _ hc => Nat.isDigit_of_mem_toDigits (by decide) (by decide) hc⟩

theorem digits_zero : Digits ['0'] :=
  ⟨List.cons_ne_nil _ _, fun c hc => by rw [List.mem_singleton.mp hc]; rfl⟩

theorem head?_append_left {ds : List Char} (h : ds ≠ []) (es : List Char) :
    (ds ++ es).head? = ds.head? := by
  rw [List.head?_append, Option.or_of_isSome (List.isSome_head?.mpr h)]

/-- The first digit of a number is no zero. -/
theorem head?_toDigits {n : Nat} (h : 0 < n) : (Nat.toDigits 10 n).head? ≠ some '0' := by
  induction n using Nat.strongRecOn with
  | ind n ih =>
    rw [Nat.toDigits_eq_if (by decide)]
    split
    · rw [List.head?_cons, ne_eq, Option.some.injEq, Nat.digitChar_eq_zero]
      omega
    · rw [head?_append_left Nat.toDigits_ne_nil]
      exact ih (n / 10) (by omega) (by omega)

theorem digits_append {ds es : List Char} (hds : ∀ c ∈ ds, c.isDigit = true) (hes : Digits es) :
    Digits (ds ++ es) :=
  ⟨List.append_ne_nil_of_right_ne_nil _ hes.nonempty,
    List.forall_mem_append.mpr ⟨hds, hes.digits⟩⟩

theorem isDigit_of_mem_replicate {n : Nat} : ∀ c ∈ List.replicate n '0', c.isDigit = true := by
  intro c hc
  rw [(List.mem_replicate.mp hc).2]
  rfl

theorem splitDigits_of_digits {ds tail : List Char} (hds : ∀ c ∈ ds, c.isDigit = true)
    (htail : ∀ c ∈ tail.head?, c.isDigit = false) : splitDigits (ds ++ tail) = (ds, tail) := by
  rw [splitDigits, Text.takeWhile_append_of_head? hds htail,
    Text.dropWhile_append_of_head? hds htail]

/-! ### Exponents -/

/-- Is the text an exponent as it is written behind a number, or nothing? -/
def IsExponent (cs : List Char) : Prop :=
  cs = [] ∨ ∃ sign ds, cs = 'e' :: sign :: ds ∧ (sign = '-' ∨ sign = '+') ∧ Digits ds

theorem head?_of_isExponent {cs : List Char} (h : IsExponent cs) :
    ∀ c ∈ cs.head?, c.isDigit = false ∧ c ≠ '.' := by
  rcases h with rfl | ⟨sign, ds, rfl, -, -⟩
  · nofun
  · rintro _ ⟨⟩
    decide

theorem readExponent?_isSome {cs : List Char} (h : IsExponent cs) :
    (readExponent? cs).isSome = true := by
  rcases h with rfl | ⟨sign, ds, rfl, hsign, hds⟩
  · rfl
  · have hdigits : (ds.isEmpty || !ds.all Char.isDigit) = false := by
      rw [List.isEmpty_eq_false_iff.mpr hds.nonempty, List.all_eq_true.mpr hds.digits]
      rfl
    rcases hsign with rfl | rfl
    · rw [readExponent?, if_pos (.inl rfl), if_neg (by rw [hdigits]; decide)]
      rfl
    · rw [readExponent?, if_pos (.inl rfl), if_neg (by rw [hdigits]; decide)]
      rfl

end Decimal

/-! ### Numbers of the standard -/

namespace Json

open Decimal

section Shapes

variable {whole fraction tail : List Char}

theorem isUnsignedNumber_whole (hwhole : isWholePart whole = true)
    (hdigits : ∀ c ∈ whole, c.isDigit = true) (htail : IsExponent tail) :
    isUnsignedNumber (whole ++ tail) = true := by
  rw [isUnsignedNumber,
    splitDigits_of_digits hdigits fun c hc => (head?_of_isExponent htail c hc).1]
  simp only [hwhole, Bool.true_and]
  split
  · next rest =>
    exact absurd rfl (head?_of_isExponent htail '.' rfl).2
  · exact readExponent?_isSome htail

theorem isUnsignedNumber_point (hwhole : isWholePart whole = true)
    (hdigits : ∀ c ∈ whole, c.isDigit = true) (hfraction : Digits fraction)
    (htail : IsExponent tail) :
    isUnsignedNumber (whole ++ '.' :: (fraction ++ tail)) = true := by
  have hpoint : ∀ c ∈ ('.' :: (fraction ++ tail)).head?, c.isDigit = false := by
    rintro _ ⟨⟩
    rfl
  rw [isUnsignedNumber, splitDigits_of_digits hdigits hpoint]
  simp only [hwhole, splitDigits_of_digits hfraction.digits
    fun c hc => (head?_of_isExponent htail c hc).1, readExponent?_isSome htail, Bool.and_true,
    List.isEmpty_eq_false_iff.mpr hfraction.nonempty, Bool.not_false]

/-- A number without a sign begins with a digit. -/
theorem head?_of_isUnsignedNumber {cs : List Char} (h : isUnsignedNumber cs = true) :
    cs.head? ≠ some '-' := by
  intro hhead
  obtain ⟨rest, rfl⟩ := List.head?_eq_some_iff.mp hhead
  have hnone : splitDigits ('-' :: rest) = ([], '-' :: rest) := rfl
  rw [isUnsignedNumber, hnone] at h
  cases h

/-- A number may have a sign. -/
theorem isNumber_of_isUnsignedNumber {cs : List Char} (h : isUnsignedNumber cs = true) :
    isNumber cs = true ∧ isNumber ('-' :: cs) = true := by
  refine ⟨?_, h⟩
  unfold isNumber
  split
  · exact absurd rfl (head?_of_isUnsignedNumber h)
  · exact h

end Shapes

/-! ### Integers -/

theorem isWholePart_of_head {ds : List Char} (hne : ds ≠ []) (h : ds.head? ≠ some '0') :
    isWholePart ds = true := by
  rw [isWholePart, List.isEmpty_eq_false_iff.mpr hne, bne_iff_ne.mpr h, Bool.or_true]
  rfl

theorem isWholePart_zero : isWholePart ['0'] = true := rfl

theorem isWholePart_toDigits (n : Nat) : isWholePart (Nat.toDigits 10 n) = true := by
  by_cases h : n = 0
  · rw [h]
    exact isWholePart_zero
  · exact isWholePart_of_head Nat.toDigits_ne_nil (head?_toDigits (Nat.pos_of_ne_zero h))

/-- An integer is its digits, with a sign in front if it is negative. -/
theorem toList_toString (n : Int) :
    (0 ≤ n ∧ (toString n).toList = Nat.toDigits 10 n.natAbs) ∨
    (n < 0 ∧ (toString n).toList = '-' :: Nat.toDigits 10 n.natAbs) := by
  rw [Int.toString_eq_repr, Int.repr_eq_if]
  by_cases h : 0 ≤ n
  · left
    rw [if_pos h, Nat.toList_repr, ← Int.toNat_of_nonneg h]
    exact ⟨Int.natCast_nonneg _, rfl⟩
  · right
    have habs : (-n).toNat = n.natAbs := by
      omega
    rw [if_neg h, String.toList_append, Nat.toList_repr, habs]
    exact ⟨Int.lt_of_not_ge h, rfl⟩

/-- The text of an integer is a number. -/
theorem isNumber_toString (n : Int) : isNumber (toString n).toList = true := by
  have hdigits := isUnsignedNumber_whole (isWholePart_toDigits n.natAbs)
    (digits_toDigits n.natAbs).digits (.inl rfl)
  rw [List.append_nil] at hdigits
  rcases toList_toString n with ⟨-, htext⟩ | ⟨-, htext⟩
  · rw [htext]
    exact (isNumber_of_isUnsignedNumber hdigits).1
  · rw [htext]
    exact (isNumber_of_isUnsignedNumber hdigits).2

/-- The integer of a text without a sign. -/
theorem integer?_of_no_sign {raw : String} (h : raw.toList.head? ≠ some '-') :
    integer? raw =
      if raw.toList.all Char.isDigit then some (ofDigits raw.toList : Int) else none := by
  rw [integer?]
  split
  · next ds hds =>
    rw [hds] at h
    exact absurd rfl h
  · rfl

/-- The text of an integer is read as the integer. -/
theorem integer?_toString (n : Int) : integer? (toString n) = some n := by
  have hvalue : ofDigits (Nat.toDigits 10 n.natAbs) = n.natAbs := Nat.ofDigitChars_ten_toDigits
  have hall : (Nat.toDigits 10 n.natAbs).all Char.isDigit = true :=
    List.all_eq_true.mpr (digits_toDigits n.natAbs).digits
  rcases toList_toString n with ⟨hn, htext⟩ | ⟨hn, htext⟩
  · have hsign : (toString n).toList.head? ≠ some '-' := by
      rw [htext]
      intro hhead
      have hmem := List.mem_of_mem_head? hhead
      exact absurd ((digits_toDigits n.natAbs).digits _ hmem) (by decide)
    rw [integer?_of_no_sign hsign, htext, if_pos hall, hvalue, Int.natAbs_of_nonneg hn]
  · rw [integer?, htext]
    simp only [hall, hvalue, Bool.true_and, bne_iff_ne, ne_eq, Int.natAbs_eq_zero]
    rw [if_pos (by omega)]
    refine congrArg some ?_
    omega

/-! ### Reals -/

/-- A real is written as a number without a sign, and not with digits alone. -/
structure IsReal (cs : List Char) : Prop where
  number : isUnsignedNumber cs = true
  other : cs.all Char.isDigit = false

/-- So it is a number, and no integer, with and without a sign. -/
theorem number_of_isReal {cs : List Char} (h : IsReal cs) (negative : Bool) :
    isNumber ((if negative then "-" else "").toList ++ cs) = true ∧
    integer? (String.ofList ((if negative then "-" else "").toList ++ cs)) = none := by
  obtain ⟨hnumber, hsigned⟩ := isNumber_of_isUnsignedNumber h.number
  cases negative with
  | true =>
    refine ⟨hsigned, ?_⟩
    rw [integer?, String.toList_ofList]
    show (if cs.all Char.isDigit && _ then _ else none) = none
    rw [h.other]
    rfl
  | false =>
    refine ⟨hnumber, ?_⟩
    have hsign : (String.ofList cs).toList.head? ≠ some '-' := by
      rw [String.toList_ofList]
      exact head?_of_isUnsignedNumber h.number
    show integer? (String.ofList cs) = none
    rw [integer?_of_no_sign hsign, String.toList_ofList, h.other]
    rfl

section Reals

variable {whole fraction tail : List Char}

theorem isReal_point (hwhole : isWholePart whole = true) (hdigits : ∀ c ∈ whole, c.isDigit = true)
    (hfraction : Digits fraction) (htail : IsExponent tail) :
    IsReal (whole ++ '.' :: (fraction ++ tail)) := by
  refine ⟨isUnsignedNumber_point hwhole hdigits hfraction htail, ?_⟩
  rw [List.all_append, List.all_cons]
  show (_ && (false && _)) = false
  rw [Bool.false_and, Bool.and_false]

theorem isReal_exponent (hwhole : isWholePart whole = true)
    (hdigits : ∀ c ∈ whole, c.isDigit = true) (htail : IsExponent tail) (hne : tail ≠ []) :
    IsReal (whole ++ tail) := by
  refine ⟨isUnsignedNumber_whole hwhole hdigits htail, ?_⟩
  rcases htail with rfl | ⟨sign, ds, rfl, -, -⟩
  · exact absurd rfl hne
  · rw [List.all_append, List.all_cons]
    show (_ && (false && _)) = false
    rw [Bool.false_and, Bool.and_false]

end Reals

/-- The point of a decimal number is put among its digits, behind zeros, or in front of a zero. -/
theorem isReal_withPoint {d : Nat} (hd : 0 < d) (e : Int) :
    IsReal (withPoint true d e).toList := by
  have hds := digits_toDigits d
  have hhead := head?_toDigits hd
  have hnone : IsExponent [] := .inl rfl
  simp only [withPoint]
  -- the point stands behind all digits, in front of them, or among them
  split
  · have hwhole : isWholePart (Nat.toDigits 10 d ++ List.replicate e.toNat '0') = true := by
      -- the zeros that are put behind the digits do not change the first of them
      refine isWholePart_of_head (List.append_ne_nil_of_left_ne_nil hds.nonempty _) ?_
      rw [head?_append_left hds.nonempty]
      exact hhead
    have hreal := isReal_point hwhole
      (List.forall_mem_append.mpr ⟨hds.digits, isDigit_of_mem_replicate⟩) digits_zero hnone
    simpa [digits, zeros] using hreal
  · split
    · generalize (-((Nat.toDigits 10 d).length + e)).toNat = k
      have hreal := isReal_point isWholePart_zero digits_zero.digits
        (digits_append (isDigit_of_mem_replicate (n := k)) hds) hnone
      simpa [digits, zeros] using hreal
    · next he hwhole =>
      generalize hk : ((Nat.toDigits 10 d).length + e).toNat = k at hwhole
      have hlt : k < (Nat.toDigits 10 d).length := by
        omega
      have htake : (Nat.toDigits 10 d).take k ≠ [] := by
        simp [hwhole, hds.nonempty]
      have hfront : isWholePart ((Nat.toDigits 10 d).take k) = true := by
        refine isWholePart_of_head htake ?_
        rw [List.head?_take, if_neg hwhole]
        exact hhead
      have hback : Digits ((Nat.toDigits 10 d).drop k) := by
        refine ⟨?_, fun c hc => hds.digits c (List.mem_of_mem_drop hc)⟩
        rw [ne_eq, List.drop_eq_nil_iff]
        omega
      have hreal := isReal_point hfront (fun c hc => hds.digits c (List.mem_of_mem_take hc)) hback
        hnone
      simpa using hreal

theorem isReal_withExponent {d : Nat} (hd : 0 < d) (e : Int) :
    IsReal (withExponent d e).toList := by
  have hds := digits_toDigits d
  have hhead := head?_toDigits hd
  obtain ⟨c, cs, hcs⟩ := List.exists_cons_of_ne_nil hds.nonempty
  rw [hcs] at hds hhead
  have hwhole : isWholePart [c] = true := isWholePart_of_head (List.cons_ne_nil _ _) hhead
  have hc : ∀ d ∈ [c], d.isDigit = true :=
    fun d hd => hds.digits d (List.mem_of_mem_take (i := 1) hd)
  simp only [withExponent, hcs, List.take_succ_cons, List.take_zero, List.drop_succ_cons,
    List.drop_zero, String.toList_append, String.toList_ofList]
  generalize e + ((c :: cs).length : Int) - 1 = top
  have hne : (if top < 0 then "e-" else "e+").toList ++ (digits top.natAbs).toList ≠ [] := by
    split <;> exact List.cons_ne_nil _ _
  have hexponent :
      IsExponent ((if top < 0 then "e-" else "e+").toList ++ (digits top.natAbs).toList) := by
    have htop : Digits (digits top.natAbs).toList := by
      rw [digits, String.toList_ofList]
      exact digits_toDigits _
    right
    split
    · exact ⟨'-', _, rfl, .inl rfl, htop⟩
    · exact ⟨'+', _, rfl, .inr rfl, htop⟩
  -- a single digit has no point behind it
  cases cs with
  | nil => simpa using isReal_exponent hwhole hc hexponent hne
  | cons c' cs =>
    have hfraction : Digits (c' :: cs) :=
      ⟨List.cons_ne_nil _ _, fun d hd => hds.digits d (List.mem_cons_of_mem c hd)⟩
    simpa using isReal_point hwhole hc hfraction hexponent

end Json

namespace Decimal

theorem ofDouble_low_pos {m : Nat} (hm : 0 < m) (q : Int) :
    0 < (Neighbourhood.ofDouble m q).low := by
  simp only [Neighbourhood.ofDouble]
  split <;> omega

/-- Zero is in no neighbourhood of a positive real. -/
theorem pos_of_contains {n : Neighbourhood} (hlow : 0 < n.low) {d : Nat} {e : Int}
    (h : n.contains d e = true) : 0 < d := by
  have hunit : 0 < n.low * n.unit e :=
    Nat.mul_pos hlow (Nat.mul_pos (Nat.pow_pos (by decide)) (Nat.pow_pos (by decide)))
  have hpos : 0 < d * n.gridStep e := by
    simp only [Neighbourhood.contains] at h
    split at h
    · simp only [Bool.and_eq_true, decide_eq_true_eq] at h
      omega
    · simp only [Bool.and_eq_true, decide_eq_true_eq] at h
      omega
  exact Nat.pos_of_mul_pos_right hpos

/-- The digits of a positive real are not all zero. -/
theorem shortest_pos (tie : Tie) {m : Nat} (hm : 0 < m) (q : Int) : 0 < (shortest tie m q).1 := by
  simp only [shortest]
  cases h : (Neighbourhood.ofDouble m q).descend tie (topExponent m q - min q 0).toNat
      (topExponent m q) with
  | none => exact hm
  | some found =>
    obtain ⟨d, e⟩ := found
    exact pos_of_contains (ofDouble_low_pos hm q) (Neighbourhood.descend_inside h)

end Decimal

namespace Json

/-- The magnitude of a real. -/
theorem isReal_magnitude (m : Nat) (q : Int) :
    IsReal (Value.jsonFormat.magnitude m q).toList := by
  rw [Decimal.Format.magnitude]
  split
  · exact isReal_point isWholePart_zero Decimal.digits_zero.digits Decimal.digits_zero (.inl rfl)
  · next hm =>
    have hd := Decimal.shortest_pos Value.jsonFormat.tie (Nat.pos_of_ne_zero hm) q
    simp only
    split
    · exact isReal_withPoint hd _
    · exact isReal_withExponent hd _

/-- The text of a real is a number, and no integer. -/
theorem number_finite (negative : Bool) (m : Nat) (q : Int) :
    isNumber (Value.jsonFormat.finite negative m q).toList = true ∧
    integer? (Value.jsonFormat.finite negative m q) = none := by
  have h := number_of_isReal (isReal_magnitude m q) negative
  rw [← String.toList_append, String.ofList_toList] at h
  exact h

end Json

end QueryTrace

/-
Reading decimal numbers by scaling.

The digits of a number are read into an integer of 64 bits, which is rounded to a double; that
double is multiplied with or divided by a power of ten, which is rounded to a double as well.  So
the result may be next to the double that is nearest to the number, as for `2e-50`.

* `fill` reads digits as long as they fit (`fill_fits`), and `fill_append` says that it loses none;
* `Spelling.scaled?` is the double of a number, unless it is too large.

Design notes: digits of the whole part that do not fit count as zeros, and those behind the point
do not count at all.  Powers of ten go up to `10 ^ 308`; what has to be divided by more is divided
several times.
-/
import QueryTrace.Decimal.Reader

namespace QueryTrace.Decimal

/-! ### Digits that fit -/

/-- Reads digits behind those of `n` as long as the number fits in 64 bits; the first one that
does not fit is left with all that follow. -/
def fill (n : Nat) : List Char → Nat × List Char
  | [] => (n, [])
  | c :: ds =>
    if withDigit n c < UInt64.size then fill (withDigit n c) ds else (n, c :: ds)

theorem fill_fits {n : Nat} (h : n < UInt64.size) (ds : List Char) :
    (fill n ds).1 < UInt64.size := by
  induction ds generalizing n with
  | nil => exact h
  | cons c ds ih =>
    rw [fill]
    split
    · next hc => exact ih hc
    · exact h

/-- The digits that are left end the digits that were given, and those in front of them were
read. -/
theorem fill_append (n : Nat) (ds : List Char) :
    ∃ read, read ++ (fill n ds).2 = ds ∧ read.foldl withDigit n = (fill n ds).1 := by
  induction ds generalizing n with
  | nil => exact ⟨[], rfl, rfl⟩
  | cons c ds ih =>
    rw [fill]
    split
    · obtain ⟨read, hds, hn⟩ := ih (withDigit n c)
      exact ⟨c :: read, by rw [List.cons_append, hds], hn⟩
    · exact ⟨[], rfl, rfl⟩

/-! ### Powers of ten -/

/-- The largest exponent whose power of ten is a double. -/
def topPower : Nat := 308

/-- The double nearest to a power of ten. -/
def tenTo (e : Nat) : Float :=
  Float.ofScientific 1 false e

/-- The number `x · 10 ^ e`, unless it is too large. -/
def scale (x : Float) (e : Int) : Option Float :=
  if e < -topPower then
    -- nothing becomes of zero, however often it is divided
    if x == 0 then some x else scale (x / tenTo topPower) (e + topPower)
  else if e < 0 then some (x / tenTo e.natAbs)
  else if e ≤ topPower then some (x * tenTo e.toNat) |>.filter Float.isFinite
  else if x == 0 then some x
  else none
termination_by (-e).toNat
decreasing_by
  simp only [topPower] at *
  omega

/-! ### Numbers -/

namespace Spelling

/-- The integer of the digits that fit, and the power of ten that goes with it. -/
def parts (s : Spelling) : Nat × Int :=
  let (n, left) := fill 0 s.whole
  let (m, unread) := fill n s.fraction
  (m, s.exponent + left.length - (s.fraction.length - unread.length : Nat))

/-- The number that is spelled, unless it is too large. -/
def scaled? (s : Spelling) : Option Float :=
  scale (Float.ofNat s.parts.1) s.parts.2

end Spelling

end QueryTrace.Decimal

/-
Shortest decimals.

A positive real `m · 2 ^ q` stands for itself and for all reals nearer to it than to its two
neighbours of the same precision.  Those reals form an interval, which holds its ends when `m` is
even.  `shortest` looks for the coarsest grid `10 ^ e` with a point in the interval, and returns
the point of that grid that is nearest to the real.

* `onGrid_inside` — a point that is found on a grid lies in the interval;
* `descend_inside` — and so does the point that the search through the grids ends with.

Design notes: all lengths are counted in quarters of the last place of `m`, because half of the
last place below a power of two is a quarter of the one above it.  Two points of one grid may be
equally near; which of them is meant is the choice of whoever asks.
-/
namespace QueryTrace.Decimal

/-- What to do when two decimals are equally near. -/
inductive Tie where
  /-- Take the larger one. -/
  | up
  /-- Take the one with the even last digit. -/
  | even
  deriving DecidableEq, Repr

/-- A positive real and the reals that it stands for, counted in units of `2 ^ scale`. -/
structure Neighbourhood where
  low : Nat
  mid : Nat
  high : Nat
  /-- Do the ends belong to it? -/
  closed : Bool
  scale : Int
  deriving Repr

/-- The neighbourhood of `m · 2 ^ q` among the doubles.  Below a power of two the doubles are
twice as dense, but not below the least normal one. -/
def Neighbourhood.ofDouble (m : Nat) (q : Int) : Neighbourhood where
  -- at a power of two the double below is only half as far away as the one above
  low := if m = Nat.pow 2 52 ∧ -1074 < q then 4 * m - 1 else 4 * m - 2
  mid := 4 * m
  high := 4 * m + 2
  closed := m % 2 == 0
  scale := q - 2

namespace Neighbourhood

/-- The unit of the neighbourhood, in a common measure with `10 ^ e`. -/
def unit (n : Neighbourhood) (e : Int) : Nat :=
  Nat.pow 2 n.scale.toNat * Nat.pow 10 (-e).toNat

/-- The power `10 ^ e`, in a common measure with the unit of the neighbourhood. -/
def gridStep (n : Neighbourhood) (e : Int) : Nat :=
  Nat.pow 10 e.toNat * Nat.pow 2 (-n.scale).toNat

/-- Is `d · 10 ^ e` in the neighbourhood? -/
def contains (n : Neighbourhood) (d : Nat) (e : Int) : Bool :=
  let x := d * n.gridStep e
  if n.closed then n.low * n.unit e ≤ x && x ≤ n.high * n.unit e
  else n.low * n.unit e < x && x < n.high * n.unit e

/-- The multiple of `10 ^ e` in the neighbourhood that is nearest to its middle. -/
def onGrid (tie : Tie) (n : Neighbourhood) (e : Int) : Option Nat :=
  let mid := n.mid * n.unit e
  let d := mid / n.gridStep e
  match n.contains d e, n.contains (d + 1) e with
  | false, false => none
  | true, false => some d
  | false, true => some (d + 1)
  | true, true =>
    -- both neighbours on the grid read back; the nearer one is the better text
    let below := mid - d * n.gridStep e
    let above := (d + 1) * n.gridStep e - mid
    if below < above then some d
    else if above < below then some (d + 1)
    else match tie with
      | .up => some (d + 1)
      | .even => some (if d % 2 = 0 then d else d + 1)

theorem onGrid_inside {tie : Tie} {n : Neighbourhood} {e : Int} {d : Nat}
    (h : n.onGrid tie e = some d) : n.contains d e = true := by
  simp only [onGrid] at h
  split at h
  · simp at h
  · simp_all
  · simp_all
  · split at h
    · simp_all
    · split at h
      · simp_all
      · split at h
        · simp_all
        · split at h <;> simp_all

/-- The first hit on the grids `10 ^ e`, `10 ^ (e - 1)`, and so on. -/
def descend (tie : Tie) (n : Neighbourhood) : Nat → Int → Option (Nat × Int)
  | 0, e => (n.onGrid tie e).map (·, e)
  | steps + 1, e =>
    match n.onGrid tie e with
    | some d => some (d, e)
    | none => descend tie n steps (e - 1)

theorem descend_inside {tie : Tie} {n : Neighbourhood} {steps : Nat} {e : Int} {d : Nat} {k : Int}
    (h : n.descend tie steps e = some (d, k)) : n.contains d k = true := by
  induction steps generalizing e with
  | zero =>
    obtain ⟨x, hx, heq⟩ := Option.map_eq_some_iff.mp h
    simp only [Prod.mk.injEq] at heq
    obtain ⟨rfl, rfl⟩ := heq
    exact onGrid_inside hx
  | succ steps ih =>
    rw [descend] at h
    split at h
    · next x hx =>
      simp only [Option.some.injEq, Prod.mk.injEq] at h
      obtain ⟨rfl, rfl⟩ := h
      exact onGrid_inside hx
    · exact ih h

end Neighbourhood

/-- A power of ten that is no smaller than `m · 2 ^ q`. -/
def topExponent (m : Nat) (q : Int) : Int :=
  ((Nat.toDigits 10 (m * Nat.pow 2 q.toNat / Nat.pow 2 (-q).toNat)).length : Nat)

/-- The shortest decimal that stands for `m · 2 ^ q`, as digits and the exponent of the last one.
The search ends at the latest where `m · 2 ^ q` is itself on the grid. -/
def shortest (tie : Tie) (m : Nat) (q : Int) : Nat × Int :=
  let top := topExponent m q
  ((Neighbourhood.ofDouble m q).descend tie (top - min q 0).toNat top).getD (m, q)

end QueryTrace.Decimal

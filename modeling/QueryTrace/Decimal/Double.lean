/-
What the bits of a double say.

A double is no number, an infinity, or `± m · 2 ^ q` with a natural number `m`; below `2 ^ 52` the
number `m` only goes with the least exponent `-1074`.

* `Double.ofFields_not` — the sign decides nothing but the sign.
-/
namespace QueryTrace.Decimal

/-- The kinds of double. -/
inductive Double where
  | nan
  | infinite (negative : Bool)
  /-- The number `± m · 2 ^ q`. -/
  | finite (negative : Bool) (m : Nat) (q : Int)
  deriving DecidableEq, Repr

namespace Double

/-- Reads sign, exponent and fraction, all as numbers. -/
def ofFields (negative : Bool) (exponent fraction : Nat) : Double :=
  if exponent = 2047 then if fraction = 0 then .infinite negative else .nan
  else if exponent = 0 then .finite negative fraction (-1074)
  else .finite negative (Nat.pow 2 52 + fraction) (exponent - 1075)

/-- Reads the 64 bits of a double. -/
def ofBits (bits : UInt64) : Double :=
  let n := bits.toNat
  ofFields (Nat.pow 2 63 ≤ n) (n / Nat.pow 2 52 % Nat.pow 2 11) (n % Nat.pow 2 52)

/-- Reads a double. -/
def ofFloat (x : Float) : Double :=
  ofBits x.toBits

/-- The same number with the other sign. -/
def neg : Double → Double
  | nan => nan
  | infinite s => infinite !s
  | finite s m q => finite (!s) m q

theorem ofFields_not (negative : Bool) (exponent fraction : Nat) :
    ofFields (!negative) exponent fraction = (ofFields negative exponent fraction).neg := by
  simp only [ofFields]
  split
  · split <;> rfl
  · split <;> rfl

end Double

end QueryTrace.Decimal

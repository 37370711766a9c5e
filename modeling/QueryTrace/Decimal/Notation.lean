/-
Decimal notation.

A decimal is its digits and the exponent of the last of them.  It is written positionally, as in
`12.5`, or with an exponent, as in `1.25e+10`; which of the two depends on the exponent of its
first digit and on the `Format`.

* `Format.finite` is the text of a finite double.

Design notes: a format says what this library leaves open: when to use an exponent, whether whole
numbers end in `.0`, and which of two equally near decimals is meant.
-/
import QueryTrace.Decimal.Double
import QueryTrace.Decimal.Shortest

namespace QueryTrace.Decimal

/-- How doubles are written. -/
structure Format where
  /-- Is a number positional whose first digit has this exponent? -/
  positional : Int → Bool
  /-- Do whole numbers that are positional end in `.0`? -/
  pointZero : Bool
  tie : Tie

/-- The digits of a number, the first one first. -/
def digits (n : Nat) : String :=
  String.ofList (Nat.toDigits 10 n)

/-- A run of zeros. -/
def zeros (n : Nat) : String :=
  String.ofList (List.replicate n '0')

/-- The number `d · 10 ^ e` with its point in place. -/
def withPoint (pointZero : Bool) (d : Nat) (e : Int) : String :=
  let ds := Nat.toDigits 10 d
  let whole := (ds.length + e).toNat
  if 0 ≤ e then digits d ++ zeros e.toNat ++ (if pointZero then ".0" else "")
  else if whole = 0 then "0." ++ zeros (-(ds.length + e)).toNat ++ digits d
  else String.ofList (ds.take whole) ++ "." ++ String.ofList (ds.drop whole)

/-- The number `d · 10 ^ e` with one digit in front of the point, and the exponent of that digit. -/
def withExponent (d : Nat) (e : Int) : String :=
  let ds := Nat.toDigits 10 d
  let top := e + ds.length - 1
  let fraction := ds.drop 1
  String.ofList (ds.take 1) ++
    (if fraction.isEmpty then "" else "." ++ String.ofList fraction) ++
    (if top < 0 then "e-" else "e+") ++ digits top.natAbs

namespace Format

/-- The magnitude `m · 2 ^ q` by its shortest decimal. -/
def magnitude (format : Format) (m : Nat) (q : Int) : String :=
  if m = 0 then if format.pointZero then "0.0" else "0"
  else
    let (d, e) := shortest format.tie m q
    if format.positional (e + (Nat.toDigits 10 d).length - 1) then withPoint format.pointZero d e
    else withExponent d e

/-- The text of a finite number; zero keeps its sign. -/
def finite (format : Format) (negative : Bool) (m : Nat) (q : Int) : String :=
  (if negative then "-" else "") ++ format.magnitude m q

end Format

end QueryTrace.Decimal

/-
Reading decimal numbers.

The nearest double of a decimal `d · 10 ^ e` is found by `nearest`.  Exponents may be so large that
the power of ten could not be written down; such numbers are infinite or zero, and `nearest` says
so without computing the power.

* `Spelling` is a number taken apart, and `Spelling.nearest` its double;
* `readDouble?` reads a number with an optional sign, in positional or exponent notation, or one
  of the words for infinity and for no number;
* `readNatural?` reads digits with a plus sign in front if wanted, and nothing else; the number
  must fit in 64 bits (`lt_of_readNatural?`);
* `splitDigits_append` — the digits at the front of a text and what follows them.
-/
namespace QueryTrace.Decimal

/-- The digits at the front of a text, and the rest. -/
def splitDigits (cs : List Char) : List Char × List Char :=
  (cs.takeWhile Char.isDigit, cs.dropWhile Char.isDigit)

theorem splitDigits_append (cs : List Char) :
    (splitDigits cs).1 ++ (splitDigits cs).2 = cs := by
  simp [splitDigits]

/-- The number that is spelled by the digits of `n` and one more. -/
def withDigit (n : Nat) (c : Char) : Nat :=
  10 * n + (c.toNat - '0'.toNat)

/-- The number that a list of digits spells. -/
def ofDigits (ds : List Char) : Nat :=
  ds.foldl withDigit 0

/-! ### Natural numbers -/

/-- Reads a number without a minus sign. -/
def readNatural? (cs : List Char) : Option Nat :=
  let ds := if cs.head? = some '+' then cs.tail else cs
  if ds.isEmpty || !ds.all Char.isDigit then none
  else if ofDigits ds < UInt64.size then some (ofDigits ds) else none

theorem lt_of_readNatural? {cs : List Char} {n : Nat} (h : readNatural? cs = some n) :
    n < UInt64.size := by
  simp only [readNatural?, Option.ite_none_left_eq_some, Option.ite_none_right_eq_some,
    Option.some.injEq] at h
  exact h.2.2 ▸ h.2.1

/-! ### Doubles -/

/-- The double nearest to `d · 10 ^ e`, and infinity if that number is too large. -/
def nearest (d : Nat) (e : Int) : Float :=
  let top := e + (Nat.toDigits 10 d).length
  if d = 0 ∨ top < -330 then 0
  else if 310 < top then 1 / 0
  else Float.ofScientific d (e < 0) e.natAbs

/-- An exponent: nothing, or the letter `e`, a sign if wanted, and digits. -/
def readExponent? (cs : List Char) : Option Int :=
  match cs with
  | [] => some 0
  | c :: rest =>
    if c = 'e' ∨ c = 'E' then
      let (negative, ds) := match rest with
        | '-' :: ds => (true, ds)
        | '+' :: ds => (false, ds)
        | ds => (false, ds)
      if ds.isEmpty || !ds.all Char.isDigit then none
      else some (if negative then -(ofDigits ds : Int) else ofDigits ds)
    else none

/-- How a number without a sign is spelled: digits in front of the point and behind it, and an
exponent. -/
structure Spelling where
  whole : List Char
  fraction : List Char
  exponent : Int
  deriving Repr

/-- Takes a number without a sign apart. -/
def readSpelling? (cs : List Char) : Option Spelling :=
  let (whole, rest) := splitDigits cs
  let (fraction, rest) := match rest with
    | '.' :: rest => splitDigits rest
    | rest => ([], rest)
  if whole.isEmpty && fraction.isEmpty then none
  else (readExponent? rest).map (⟨whole, fraction, ·⟩)

/-- The double nearest to the number that is spelled. -/
def Spelling.nearest (s : Spelling) : Float :=
  Decimal.nearest (ofDigits (s.whole ++ s.fraction)) (s.exponent - s.fraction.length)

/-- A magnitude: a number without a sign, or a word, in whatever case of letters. -/
def readMagnitude? (cs : List Char) : Option Float :=
  let word := String.ofList (cs.map Char.toLower)
  if word = "inf" ∨ word = "infinity" then some (1 / 0)
  else if word = "nan" then some (0 / 0)
  else (readSpelling? cs).map Spelling.nearest

/-- Reads a double. -/
def readDouble? (text : String) : Option Float :=
  match text.toList with
  | '-' :: rest => (readMagnitude? rest).map (-·)
  | '+' :: rest => readMagnitude? rest
  | cs => readMagnitude? cs

end QueryTrace.Decimal

/-
Cell values and their arithmetic.

* `toInt_of_ofInt?` — a sum, difference or product of integers is exact whenever it is an integer:
  one that does not fit is a real number instead;
* `compare_null` — nothing can be compared with null.

Design notes: an operation has a result for any two values, null where it makes no sense.  Texts
are joined by addition, and division leaves the integers even where it comes out even.  Integers
and reals are compared as reals, to which an integer is rounded.  Two nulls are equal although they
cannot be compared.
-/
import QueryTrace.Decimal.Notation

namespace QueryTrace

/-- What a cell of a table may hold. -/
inductive Value where
  | null
  | integer (n : Int64)
  | real (x : Float)
  | text (s : String)
  | boolean (b : Bool)
  deriving Repr, Inhabited

/-- A row of a table. -/
abbrev Row := List Value

namespace Value

def isNull : Value → Bool
  | null => true
  | _ => false

/-- Does the value count as true?  Null, zero, the empty text and false do not, nor does what is
no number. -/
def truthy : Value → Bool
  | null => false
  | integer n => n != 0
  | real x => x != 0 && !x.isNaN
  | text s => s != ""
  | boolean b => b

/-- The real number of a numeric value. -/
def toFloat? : Value → Option Float
  | integer n => some (Float.ofInt n.toInt)
  | real x => some x
  | _ => none

/-! ### Arithmetic -/

/-- The integer with the given value, if there is one. -/
def ofInt? (n : Int) : Option Value :=
  if Int64.minValue.toInt ≤ n ∧ n ≤ Int64.maxValue.toInt then some (integer (Int64.ofInt n)) else none

/-- An operation on reals, applied to numeric values. -/
def onReals (op : Float → Float → Float) (a b : Value) : Value :=
  match a.toFloat?, b.toFloat? with
  | some x, some y => real (op x y)
  | _, _ => null

/-- An operation that is exact on integers where its result fits, and one on reals otherwise. -/
def onNumbers (exact : Int → Int → Int) (op : Float → Float → Float) (a b : Value) : Value :=
  match a, b with
  | integer m, integer n => (ofInt? (exact m.toInt n.toInt)).getD (onReals op a b)
  | _, _ => onReals op a b

/-- Sum of numbers, or one text behind the other. -/
def add (a b : Value) : Value :=
  match a, b with
  | text s, text t => text (s ++ t)
  | _, _ => onNumbers (· + ·) (· + ·) a b

def sub : Value → Value → Value :=
  onNumbers (· - ·) (· - ·)

def mul : Value → Value → Value :=
  onNumbers (· * ·) (· * ·)

/-- Quotient of reals; division by zero gives an infinity or what is no number. -/
def div : Value → Value → Value :=
  onReals (· / ·)

theorem toInt_of_ofInt? {n : Int} {k : Int64} (h : ofInt? n = some (integer k)) : k.toInt = n := by
  simp only [ofInt?, Option.ite_none_right_eq_some, Option.some.injEq, integer.injEq] at h
  obtain ⟨⟨h1, h2⟩, rfl⟩ := h
  exact Int64.toInt_ofInt_of_le h1 (Int.lt_add_one_of_le h2)

/-! ### Comparison -/

/-- The order of two reals, unless one of them is no number. -/
def compareFloats (x y : Float) : Option Ordering :=
  if x < y then some .lt else if x == y then some .eq else if y < x then some .gt else none

/-- The order of two values of comparable kinds. -/
def compare (a b : Value) : Option Ordering :=
  match a, b with
  | integer m, integer n => some (Ord.compare m.toInt n.toInt)
  | text s, text t => some (Ord.compare s t)
  | boolean p, boolean q => some (Ord.compare p q)
  | _, _ =>
    match a.toFloat?, b.toFloat? with
    | some x, some y => compareFloats x y
    | _, _ => none

/-- Equality as the equals sign means it. -/
def looseEq (a b : Value) : Bool :=
  (a.isNull && b.isNull) || a.compare b == some .eq

theorem compare_null (a : Value) : compare null a = none := by
  cases a <;> rfl

/-! ### Text -/

/-- Reals are shown without exponents, and whole ones without a point. -/
def realFormat : Decimal.Format where
  positional _ := true
  pointZero := false
  tie := .up

/-- The text of a real. -/
def showReal (x : Float) : String :=
  match Decimal.Double.ofFloat x with
  | .nan => "NaN"
  | .infinite negative => if negative then "-inf" else "inf"
  | .finite negative m q => realFormat.finite negative m q

/-- The value as it is shown in a table. -/
def display : Value → String
  | null => "NULL"
  | integer n => toString n.toInt
  | real x => showReal x
  | text s => s
  | boolean b => if b then "true" else "false"

end Value

end QueryTrace

/-
Json values.

* `Json.integer?` and `Json.real?` are the numbers behind the text of a number.

Design notes: a number is kept as it is written, so that nothing is lost and nothing has to be in
range before somebody asks for it.  A string is `none` when one of its escapes names half of a
surrogate pair without the other half; there is no such text, but no harm is done as long as
nobody looks at it.  The members of an object are all there in their order, repeated ones too.
The real behind a number is found by scaling, and may be next to the nearest one.
-/
import QueryTrace.Decimal.Scaling

namespace QueryTrace

/-- A Json value. -/
inductive Json where
  | null
  | bool (b : Bool)
  /-- A number, as it is written. -/
  | number (raw : String)
  | string (s : Option String)
  | array (items : List Json)
  | object (members : List (Option String × Json))
  deriving Repr

namespace Json

/-- A string that is a text. -/
def text (s : String) : Json :=
  .string (some s)

/-- The text of a string. -/
def text? : Json → Option String
  | .string s => s
  | _ => none

/-- The items of an array. -/
def items? : Json → Option (List Json)
  | .array items => some items
  | _ => none

/-- The number that a whole number spells.  A zero with a sign is no integer. -/
def integer? (raw : String) : Option Int :=
  match raw.toList with
  | '-' :: ds =>
    if ds.all Char.isDigit && Decimal.ofDigits ds != 0 then some (-(Decimal.ofDigits ds : Int))
    else none
  | ds => if ds.all Char.isDigit then some (Decimal.ofDigits ds) else none

/-- The double that a number spells, unless it is too large. -/
def real? (raw : String) : Option Float :=
  match raw.toList with
  | '-' :: cs => ((Decimal.readSpelling? cs).bind (·.scaled?)).map (-·)
  | cs => (Decimal.readSpelling? cs).bind (·.scaled?)

end Json

end QueryTrace

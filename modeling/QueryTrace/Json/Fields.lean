/-
Records in Json.

A record is an object with a member for each field, or an array of the fields in order.  In an
object the order does not matter, members of other names are passed over, and a field must not be
there twice.

* `Json.fields?` gives the fields of a record that are there, in order.
-/
import QueryTrace.Json.Basic

namespace QueryTrace.Json

/-- The members with a given key. -/
def membersNamed (name : String) (members : List (Option String × Json)) : List Json :=
  members.filterMap fun (key, x) => if key = some name then some x else none

/-- The one member with a given key, or none; but it must not be there twice. -/
def memberNamed? (members : List (Option String × Json)) (name : String) : Option (Option Json) :=
  match membersNamed name members with
  | [] => some none
  | [x] => some (some x)
  | _ => none

/-- The fields of a record, each if it is there.  The last fields may be missing from an array if
`short` says so. -/
def fields? (short : Bool) (names : List String) : Json → Option (List (Option Json))
  | .object members => do
    guard (members.all (·.1.isSome))
    names.mapM (memberNamed? members)
  | .array items =>
    if items.length = names.length ∨ (short ∧ items.length ≤ names.length) then
      some (items.map some ++ List.replicate (names.length - items.length) none)
    else none
  | _ => none

/-- A value that may be null or missing. -/
def nullable? {α : Type} (read : Json → Option α) : Option Json → Option (Option α)
  | none => some none
  | some .null => some none
  | some j => (read j).map some

/-- An integer of 64 bits without a sign. -/
def natural? : Json → Option Nat
  | .number raw =>
    match integer? raw with
    | some (.ofNat n) => if n < UInt64.size then some n else none
    | _ => none
  | _ => none

/-- A number without a sign, as Json. -/
def natural (n : Nat) : Json :=
  .number (toString n)

/-- A value that may be null, as Json. -/
def nullable {α : Type} (write : α → Json) : Option α → Json
  | some x => write x
  | none => .null

/-- A record as Json. -/
def record (fields : List (String × Json)) : Json :=
  .object (fields.map fun (name, x) => (some name, x))

/-- One of several plain words: the word itself, or an object with the word for its only key and
null for its value. -/
def word? : Json → Option String
  | .string s => s
  | .object [(some s, .null)] => some s
  | _ => none

end QueryTrace.Json

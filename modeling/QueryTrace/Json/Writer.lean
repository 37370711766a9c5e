/-
Writing Json.

A layout says what goes between the parts of a value: nothing at all, or line breaks with two
blanks for every level.  An empty array or object has nothing inside under either layout.

* `writeString` escapes quotes, backslashes and control characters, and nothing else;
* `Json.write_array_nil` and `Json.write_object_nil` — the empty ones.
-/
import QueryTrace.Json.Basic

namespace QueryTrace.Json

/-- What goes between the parts of a value. -/
structure Layout where
  /-- What goes in front of a part at some depth. -/
  gap : Nat → List Char
  /-- What goes between a colon and the value behind it. -/
  afterColon : List Char

/-- Nothing between the parts. -/
def compact : Layout where
  gap _ := []
  afterColon := []

/-- Each part on a line of its own. -/
def pretty : Layout where
  gap depth := '\n' :: List.replicate (2 * depth) ' '
  afterColon := [' ']

/-- A hexadecimal digit, in small letters. -/
def hexDigit (n : Nat) : Char :=
  if n < 10 then Char.ofNat ('0'.toNat + n) else Char.ofNat ('a'.toNat + (n - 10))

/-- A character within a string. -/
def escape (c : Char) : List Char :=
  if c = '"' then ['\\', '"']
  else if c = '\\' then ['\\', '\\']
  else if c = '\x08' then ['\\', 'b']
  else if c = '\x0c' then ['\\', 'f']
  else if c = '\n' then ['\\', 'n']
  else if c = '\r' then ['\\', 'r']
  else if c = '\t' then ['\\', 't']
  else if c.toNat < 0x20 then ['\\', 'u', '0', '0', hexDigit (c.toNat / 16), hexDigit (c.toNat % 16)]
  else [c]

/-- A text between quotes. -/
def writeString (s : List Char) : List Char :=
  '"' :: s.flatMap escape ++ ['"']

/-- The characters of a string; one that is no text is written as if it were empty. -/
def characters (s : Option String) : List Char :=
  (s.getD "").toList

mutual

/-- A value at some depth. -/
def write (layout : Layout) (depth : Nat) : Json → List Char
  | .null => "null".toList
  | .bool b => if b then "true".toList else "false".toList
  | .number raw => raw.toList
  | .string s => writeString (characters s)
  | .array [] => ['[', ']']
  | .array (x :: xs) =>
    '[' :: layout.gap (depth + 1) ++ write layout (depth + 1) x ++
      writeItems layout (depth + 1) xs ++ layout.gap depth ++ [']']
  | .object [] => ['\x7b', '\x7d']
  | .object ((key, x) :: xs) =>
    '\x7b' :: layout.gap (depth + 1) ++ writeString (characters key) ++ ':' :: layout.afterColon ++
      write layout (depth + 1) x ++ writeMembers layout (depth + 1) xs ++ layout.gap depth ++ ['\x7d']

/-- The items behind the first one. -/
def writeItems (layout : Layout) (depth : Nat) : List Json → List Char
  | [] => []
  | x :: xs => ',' :: layout.gap depth ++ write layout depth x ++ writeItems layout depth xs

/-- The members behind the first one. -/
def writeMembers (layout : Layout) (depth : Nat) : List (Option String × Json) → List Char
  | [] => []
  | (key, x) :: xs =>
    ',' :: layout.gap depth ++ writeString (characters key) ++ ':' :: layout.afterColon ++
      write layout depth x ++ writeMembers layout depth xs

end

theorem write_array_nil (layout : Layout) (depth : Nat) :
    write layout depth (.array []) = ['[', ']'] := by
  rw [write]

theorem write_object_nil (layout : Layout) (depth : Nat) :
    write layout depth (.object []) = ['\x7b', '\x7d'] := by
  rw [write]

/-- The text of a value. -/
def print (layout : Layout) (j : Json) : String :=
  String.ofList (write layout 0 j)

end QueryTrace.Json

/-
Reading Json.

The reader accepts the texts of the standard and no others: no byte order mark, no comments, no
comma behind the last item, no number with a leading zero or a bare point, no control character
inside a string.

* `Json.parse?` reads a text that is one value with blanks around it;
* `joinSurrogates` makes characters from the code units that a string spells.
-/
import QueryTrace.Json.Basic
import QueryTrace.Token

namespace QueryTrace.Json

/-- The four blanks of the standard. -/
def isSpace (c : Char) : Bool :=
  c == ' ' || c == '\n' || c == '\t' || c == '\r'

/-- The text without the blanks in front of it. -/
def skip (cs : List Char) : List Char :=
  cs.dropWhile isSpace

theorem skip_length_le (cs : List Char) : (skip cs).length ≤ cs.length :=
  (List.dropWhile_suffix isSpace).length_le

/-! ### Strings -/

/-- The value of a hexadecimal digit. -/
def hexValue? (c : Char) : Option Nat :=
  if c.isDigit then some (c.toNat - '0'.toNat)
  else if 'a' ≤ c ∧ c ≤ 'f' then some (c.toNat - 'a'.toNat + 10)
  else if 'A' ≤ c ∧ c ≤ 'F' then some (c.toNat - 'A'.toNat + 10)
  else none

/-- The code unit that four hexadecimal digits spell. -/
def hexUnit? (a b c d : Char) : Option Nat := do
  return ((← hexValue? a) * 16 + (← hexValue? b)) * 256 + ((← hexValue? c) * 16 + (← hexValue? d))

/-- The character that is meant by a letter behind a backslash. -/
def escaped? (c : Char) : Option Char :=
  match c with
  | '"' => some '"'
  | '\\' => some '\\'
  | '/' => some '/'
  | 'b' => some '\x08'
  | 'f' => some '\x0c'
  | 'n' => some '\n'
  | 'r' => some '\r'
  | 't' => some '\t'
  | _ => none

/-- The code units of a string up to its closing quote.  A character that stands for itself is
one unit, however large. -/
def readUnits : (cs : List Char) → Option (Taken (List Nat) cs)
  | [] => none
  | '"' :: rest => some ⟨[], rest, Nat.lt_succ_self _⟩
  | '\\' :: 'u' :: a :: b :: c :: d :: rest => do
    let unit ← hexUnit? a b c d
    let more ← readUnits rest
    return (more.map (unit :: ·)).weaken (Nat.le_add_right _ 6)
  | '\\' :: e :: rest => do
    let c ← escaped? e
    let more ← readUnits rest
    return (more.map (c.toNat :: ·)).weaken (Nat.le_add_right _ 2)
  | c :: rest => do
    guard (c ≠ '\\' ∧ 0x20 ≤ c.toNat)
    let more ← readUnits rest
    return (more.map (c.toNat :: ·)).weaken (Nat.le_succ _)

/-- Is the code unit the first half of a surrogate pair? -/
def isHighSurrogate (unit : Nat) : Bool :=
  0xD800 ≤ unit && unit < 0xDC00

/-- Is the code unit the second half of a surrogate pair? -/
def isLowSurrogate (unit : Nat) : Bool :=
  0xDC00 ≤ unit && unit < 0xE000

/-- The characters that code units spell, unless half of a surrogate pair is among them. -/
def joinSurrogates : List Nat → Option (List Char)
  | [] => some []
  -- the last unit has nothing behind it to pair up with
  | [unit] =>
    if isHighSurrogate unit || isLowSurrogate unit then none else some [Char.ofNat unit]
  | unit :: next :: rest =>
    if isHighSurrogate unit then
      if isLowSurrogate next then
        (joinSurrogates rest).map
          (Char.ofNat (0x10000 + (unit - 0xD800) * 0x400 + (next - 0xDC00)) :: ·)
      else none
    else if isLowSurrogate unit then none
    else (joinSurrogates (next :: rest)).map (Char.ofNat unit :: ·)

/-- A string behind its opening quote. -/
def readString (cs : List Char) : Option (Taken (Option String) cs) :=
  (readUnits cs).map (·.map fun units => (joinSurrogates units).map String.ofList)

/-! ### Numbers -/

/-- May the character be part of a number? -/
def isNumberChar (c : Char) : Bool :=
  c.isDigit || c == '-' || c == '+' || c == '.' || c == 'e' || c == 'E'

/-- Do the digits in front of the point have no zero too many? -/
def isWholePart (ds : List Char) : Bool :=
  !ds.isEmpty && (ds.length == 1 || ds.head? != some '0')

/-- Is the text a number of the standard without a sign? -/
def isUnsignedNumber (cs : List Char) : Bool :=
  let (whole, rest) := Decimal.splitDigits cs
  isWholePart whole &&
    match rest with
    | '.' :: rest =>
      let (fraction, rest) := Decimal.splitDigits rest
      !fraction.isEmpty && (Decimal.readExponent? rest).isSome
    | rest => (Decimal.readExponent? rest).isSome

/-- Is the text a number of the standard? -/
def isNumber (cs : List Char) : Bool :=
  match cs with
  | '-' :: rest => isUnsignedNumber rest
  | cs => isUnsignedNumber cs

/-! ### Values -/

/-- A value that is neither array nor object. -/
def readScalar : (cs : List Char) → Option (Taken Json cs)
  | [] => none
  | 'n' :: 'u' :: 'l' :: 'l' :: rest => some ⟨.null, rest, by simp; omega⟩
  | 't' :: 'r' :: 'u' :: 'e' :: rest => some ⟨.bool true, rest, by simp; omega⟩
  | 'f' :: 'a' :: 'l' :: 's' :: 'e' :: rest => some ⟨.bool false, rest, by simp; omega⟩
  | '"' :: rest => (readString rest).map fun s => (s.map .string).weaken (by simp)
  | c :: rest =>
    let raw := c :: rest.takeWhile isNumberChar
    if isNumber raw then
      some ⟨.number (String.ofList raw), rest.dropWhile isNumberChar, by
        have := (List.dropWhile_suffix isNumberChar (l := rest)).length_le
        simp only [List.length_cons]
        omega⟩
    else none

/-- A character with blanks in front of it. -/
def expect (c : Char) (cs : List Char) : Option (Taken Unit cs) :=
  if (skip cs).head? = some c then
    if h : skip cs = [] then none
    else some ⟨(), (skip cs).tail, by
      have := skip_length_le cs
      have := List.length_pos_iff.mpr h
      simp only [List.length_tail]
      omega⟩
  else none

/-- The key of a member with its colon, and blanks in front of both. -/
def readKey (cs : List Char) : Option (Taken (Option String) cs) := do
  let quote ← expect '"' cs
  let key ← readString quote.rest
  let colon ← expect ':' key.rest
  return ⟨key.value, colon.rest, by
    have := quote.shorter
    have := key.shorter
    have := colon.shorter
    omega⟩

mutual

/-- The value at the front. -/
def readValue (cs : List Char) : Option (Taken Json cs) :=
  match cs with
  | '[' :: rest =>
    match expect ']' rest with
    | some close => some ((close.map fun _ => .array []).weaken (by simp))
    | none => (readItems rest).map fun items => (items.map .array).weaken (by simp)
  | '\x7b' :: rest =>
    match expect '\x7d' rest with
    | some close => some ((close.map fun _ => .object []).weaken (by simp))
    | none => (readMembers rest).map fun members => (members.map .object).weaken (by simp)
  | cs => readScalar cs
termination_by 2 * cs.length

/-- Items with commas between them, up to the closing bracket. -/
def readItems (cs : List Char) : Option (Taken (List Json) cs) := do
  let x ← readValue (skip cs)
  have hx : x.rest.length < cs.length := Nat.lt_of_lt_of_le x.shorter (skip_length_le cs)
  match expect ',' x.rest with
  | some comma =>
    have hc : comma.rest.length < cs.length := Nat.lt_trans comma.shorter hx
    let more ← readItems comma.rest
    return (more.map (x.value :: ·)).weaken (Nat.le_of_lt hc)
  | none =>
    let close ← expect ']' x.rest
    return (close.map fun _ => [x.value]).weaken (Nat.le_of_lt hx)
termination_by 2 * cs.length + 1
decreasing_by
  · have := skip_length_le cs
    omega
  · omega

/-- Members with commas between them, up to the closing brace. -/
def readMembers (cs : List Char) : Option (Taken (List (Option String × Json)) cs) := do
  let key ← readKey cs
  let x ← readValue (skip key.rest)
  have hx : x.rest.length < cs.length :=
    Nat.lt_trans (Nat.lt_of_lt_of_le x.shorter (skip_length_le key.rest)) key.shorter
  match expect ',' x.rest with
  | some comma =>
    have hc : comma.rest.length < cs.length := Nat.lt_trans comma.shorter hx
    let more ← readMembers comma.rest
    return (more.map ((key.value, x.value) :: ·)).weaken (Nat.le_of_lt hc)
  | none =>
    let close ← expect '\x7d' x.rest
    return (close.map fun _ => [(key.value, x.value)]).weaken (Nat.le_of_lt hx)
termination_by 2 * cs.length + 1
decreasing_by
  · have := skip_length_le key.rest
    have := key.shorter
    omega
  · omega

end

/-- Reads a text that is one value. -/
def parse? (text : String) : Option Json := do
  let x ← readValue (skip text.toList)
  guard (skip x.rest).isEmpty
  return x.value

end QueryTrace.Json

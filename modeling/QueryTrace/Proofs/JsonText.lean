/-
Json texts are read back.

Whatever the layout, the text of a value is read as that value.  The proof goes along the writer:
each part of a text is read in front of anything that may stand behind it.

* `Writable` holds of the values that have a text: their numbers are numbers of the standard, and
  none of their strings has half of a surrogate pair in it;
* `Yields read cs a rest` — the reader makes the value `a` of the text and leaves `rest`;
* `yields_string` — a written string is read back, whatever its characters are;
* **`parse?_print`** — the text of a writable value is read as the value.

Design notes: the readers return proofs beside their values, and `Yields` leaves these proofs out.
A number ends where the text goes on with no character of numbers, so values are read in front of
texts that begin with none.
-/
import Mathlib.Data.Option.Basic
import QueryTrace.Json.Reader
import QueryTrace.Json.Writer
import QueryTrace.Text.Blank

namespace QueryTrace.Json

/-- The reader makes this value of the text and leaves this rest. -/
def Yields {α : Type} (read : (cs : List Char) → Option (Taken α cs)) (cs : List Char) (a : α)
    (rest : List Char) : Prop :=
  ∃ h, read cs = some ⟨a, rest, h⟩

/-- Has the value a text? -/
inductive Writable : Json → Prop where
  | null : Writable .null
  | bool (b : Bool) : Writable (.bool b)
  | number {raw : String} (h : isNumber raw.toList = true) : Writable (.number raw)
  | text (s : String) : Writable (.text s)
  | array {items : List Json} (h : ∀ x ∈ items, Writable x) : Writable (.array items)
  | object {members : List (Option String × Json)} (hkeys : ∀ m ∈ members, m.1.isSome)
    (h : ∀ m ∈ members, Writable m.2) : Writable (.object members)

/-- Does no number go on at the front of the text? -/
def Ends (cs : List Char) : Prop :=
  ∀ c ∈ cs.head?, isNumberChar c = false

/-! ### Blanks -/

/-- Does the layout put nothing but blanks between the parts of a value? -/
structure Layout.IsBlank (layout : Layout) : Prop where
  gap : ∀ depth, ∀ c ∈ layout.gap depth, isSpace c = true
  afterColon : ∀ c ∈ layout.afterColon, isSpace c = true

theorem isBlank_compact : compact.IsBlank :=
  ⟨fun _ _ hc => (List.not_mem_nil hc).elim, fun _ hc => (List.not_mem_nil hc).elim⟩

theorem isBlank_pretty : pretty.IsBlank := by
  constructor
  · intro depth c hc
    rcases List.mem_cons.mp hc with rfl | hc
    · rfl
    · rw [(List.mem_replicate.mp hc).2]
      rfl
  · intro c hc
    rw [List.mem_singleton.mp hc]
    rfl

section Blanks

variable {c : Char} {cs gap : List Char}

theorem skip_cons (h : isSpace c = false) (cs : List Char) : skip (c :: cs) = c :: cs := by
  rw [skip, List.dropWhile_cons, if_neg (by rw [h]; decide)]

theorem skip_append (h : ∀ c ∈ gap, isSpace c = true) (cs : List Char) :
    skip (gap ++ cs) = skip cs :=
  List.dropWhile_append_of_pos h

theorem isNumberChar_of_isSpace (h : isSpace c = true) : isNumberChar c = false := by
  simp only [isSpace, Bool.or_eq_true, beq_iff_eq] at h
  rcases h with ((rfl | rfl) | rfl) | rfl <;> rfl

/-- A number does not go on behind itself when blanks, or no character of numbers, follow. -/
theorem ends_append (hgap : ∀ c ∈ gap, isSpace c = true) (h : Ends cs) : Ends (gap ++ cs) := by
  cases gap with
  | nil => exact h
  | cons d gap =>
    rintro _ ⟨⟩
    exact isNumberChar_of_isSpace (hgap d List.mem_cons_self)

theorem ends_cons (h : isNumberChar c = false) (cs : List Char) : Ends (c :: cs) := by
  rintro _ ⟨⟩
  exact h

theorem yields_expect (hgap : ∀ c ∈ gap, isSpace c = true) (hc : isSpace c = false)
    (rest : List Char) : Yields (expect c) (gap ++ c :: rest) () rest := by
  have hskip : skip (gap ++ c :: rest) = c :: rest := by
    rw [skip_append hgap, skip_cons hc]
  have hlt : rest.length < (gap ++ c :: rest).length := by
    rw [List.length_append, List.length_cons]
    omega
  refine ⟨hlt, ?_⟩
  simp only [expect, hskip, List.head?_cons, ↓reduceIte, reduceCtorEq, ↓reduceDIte, List.tail_cons]

theorem yields_expect_head (hc : isSpace c = false) (rest : List Char) :
    Yields (expect c) (c :: rest) () rest :=
  yields_expect (List.forall_mem_nil _) hc rest

theorem expect_eq_none (hgap : ∀ c ∈ gap, isSpace c = true) {d : Char} (hd : isSpace d = false)
    (hdc : d ≠ c) (rest : List Char) : expect c (gap ++ d :: rest) = none := by
  have hhead : (skip (gap ++ d :: rest)).head? = some d := by
    rw [skip_append hgap, skip_cons hd, List.head?_cons]
  rw [expect, if_neg]
  rw [hhead, Option.some.injEq]
  exact hdc

end Blanks

/-! ### Strings -/

theorem hexValue?_hexDigit {n : Nat} (h : n < 16) : hexValue? (hexDigit n) = some n := by
  have hall : (List.range 16).all (fun n => hexValue? (hexDigit n) == some n) = true := by decide
  simpa using List.all_eq_true.mp hall n (List.mem_range.mpr h)

theorem hexUnit?_hexDigit {n : Nat} (h : n < 0x20) :
    hexUnit? '0' '0' (hexDigit (n / 16)) (hexDigit (n % 16)) = some n := by
  have hzero : hexValue? '0' = some 0 := rfl
  rw [hexUnit?, hzero, hexValue?_hexDigit (by omega), hexValue?_hexDigit (by omega)]
  refine congrArg some ?_
  omega

/-- A character is escaped by a letter, or by its number if it is a control character without one,
or else it stands for itself. -/
theorem escape_cases (c : Char) :
    (∃ e, e ≠ 'u' ∧ escape c = ['\\', e] ∧ escaped? e = some c) ∨
    (c.toNat < 0x20 ∧
      escape c = ['\\', 'u', '0', '0', hexDigit (c.toNat / 16), hexDigit (c.toNat % 16)]) ∨
    (c ≠ '"' ∧ c ≠ '\\' ∧ 0x20 ≤ c.toNat ∧ escape c = [c]) := by
  by_cases hletter : c ∈ ['"', '\\', '\x08', '\x0c', '\n', '\r', '\t']
  · left
    simp only [List.mem_cons, List.not_mem_nil, or_false] at hletter
    rcases hletter with rfl | rfl | rfl | rfl | rfl | rfl | rfl <;>
      exact ⟨_, by decide, rfl, rfl⟩
  · right
    simp only [List.mem_cons, List.not_mem_nil, or_false, not_or] at hletter
    obtain ⟨hquote, hslash, hb, hf, hn, hr, ht⟩ := hletter
    by_cases hcontrol : c.toNat < 0x20
    · left
      refine ⟨hcontrol, ?_⟩
      rw [escape, if_neg hquote, if_neg hslash, if_neg hb, if_neg hf, if_neg hn, if_neg hr,
        if_neg ht, if_pos hcontrol]
    · right
      refine ⟨hquote, hslash, Nat.le_of_not_lt hcontrol, ?_⟩
      rw [escape, if_neg hquote, if_neg hslash, if_neg hb, if_neg hf, if_neg hn, if_neg hr,
        if_neg ht, if_neg hcontrol]

section Units

variable {c : Char} {rest : List Char}

theorem readUnits_close : readUnits ('"' :: rest) = some ⟨[], rest, Nat.lt_succ_self _⟩ := by
  rw [readUnits]

/-- A character that is meant by a letter. -/
theorem readUnits_letter {e : Char} (hu : e ≠ 'u') (hc : escaped? e = some c) :
    readUnits ('\\' :: e :: rest) =
      (readUnits rest).map fun more =>
        (more.map (c.toNat :: ·)).weaken (Nat.le_add_right _ 2) := by
  rw [readUnits, hc]
  · cases readUnits rest <;> rfl
  · exact fun _ _ _ _ _ h _ => hu h

/-- A code unit by its number. -/
theorem readUnits_hex {a b c d : Char} {unit : Nat} (h : hexUnit? a b c d = some unit) :
    readUnits ('\\' :: 'u' :: a :: b :: c :: d :: rest) =
      (readUnits rest).map fun more => (more.map (unit :: ·)).weaken (Nat.le_add_right _ 6) := by
  rw [readUnits, h]
  cases readUnits rest <;> rfl

/-- A character that stands for itself. -/
theorem readUnits_plain (hquote : c ≠ '"') (hslash : c ≠ '\\') (hle : 0x20 ≤ c.toNat) :
    readUnits (c :: rest) =
      (readUnits rest).map fun more => (more.map (c.toNat :: ·)).weaken (Nat.le_succ _) := by
  have hguard : (guard (c ≠ '\\' ∧ 0x20 ≤ c.toNat) : Option Unit) = some () :=
    if_pos ⟨hslash, hle⟩
  rw [readUnits, hguard]
  · cases readUnits rest <;> rfl
  · exact hquote
  · exact fun _ _ _ _ _ h _ => hslash h
  · exact fun _ _ h _ => hslash h

end Units

/-- An escaped character is read as its code unit. -/
theorem yields_escape (c : Char) {cs rest : List Char} {units : List Nat}
    (h : Yields readUnits cs units rest) :
    Yields readUnits (escape c ++ cs) (c.toNat :: units) rest := by
  obtain ⟨hlt, h⟩ := h
  -- each reader returns a proof that it has read something
  have hlonger : ∀ front : List Char, rest.length < (front ++ cs).length := by
    intro front
    rw [List.length_append]
    omega
  rcases escape_cases c with ⟨e, he, hescape, hc⟩ | ⟨hcontrol, hescape⟩ |
    ⟨hquote, hslash, hle, hescape⟩
  · rw [hescape]
    refine ⟨hlonger _, ?_⟩
    show readUnits ('\\' :: e :: cs) = _
    rw [readUnits_letter he hc, h]
    rfl
  · rw [hescape]
    refine ⟨hlonger _, ?_⟩
    show readUnits ('\\' :: 'u' :: '0' :: '0' :: hexDigit (c.toNat / 16) ::
      hexDigit (c.toNat % 16) :: cs) = _
    rw [readUnits_hex (hexUnit?_hexDigit hcontrol), h]
    rfl
  · rw [hescape]
    refine ⟨hlonger _, ?_⟩
    show readUnits (c :: cs) = _
    rw [readUnits_plain hquote hslash hle, h]
    rfl

theorem yields_units (cs rest : List Char) :
    Yields readUnits (cs.flatMap escape ++ '"' :: rest) (cs.map Char.toNat) rest := by
  induction cs with
  | nil =>
    show Yields readUnits ('"' :: rest) [] rest
    exact ⟨Nat.lt_succ_self _, readUnits_close⟩
  | cons c cs ih =>
    rw [List.flatMap_cons, List.append_assoc, List.map_cons]
    exact yields_escape c ih

theorem not_surrogate (c : Char) :
    isHighSurrogate c.toNat = false ∧ isLowSurrogate c.toNat = false := by
  have hvalid : c.toNat < 0xD800 ∨ 0xDFFF < c.toNat ∧ c.toNat < 0x110000 := c.valid
  simp only [isHighSurrogate, isLowSurrogate, Bool.and_eq_false_iff, decide_eq_false_iff_not]
  omega

/-- Characters are no halves of surrogate pairs, so they are put together one by one. -/
theorem joinSurrogates_map (cs : List Char) : joinSurrogates (cs.map Char.toNat) = some cs := by
  induction cs with
  | nil => rfl
  | cons c cs ih =>
    obtain ⟨hhigh, hlow⟩ := not_surrogate c
    cases cs with
    | nil =>
      show joinSurrogates [c.toNat] = _
      rw [joinSurrogates, hhigh, hlow, Char.ofNat_toNat]
      rfl
    | cons d cs =>
      show joinSurrogates (c.toNat :: d.toNat :: cs.map Char.toNat) = _
      rw [joinSurrogates, hhigh, hlow, Char.ofNat_toNat]
      exact congrArg (Option.map (c :: ·)) ih

/-- A written string is read back, whatever its characters are. -/
theorem yields_string (s : String) (rest : List Char) :
    Yields readString (s.toList.flatMap escape ++ '"' :: rest) (some s) rest := by
  obtain ⟨hlt, h⟩ := yields_units s.toList rest
  refine ⟨hlt, ?_⟩
  rw [readString, h]
  show some (Taken.mk ((joinSurrogates (s.toList.map Char.toNat)).map String.ofList) rest hlt) = _
  rw [joinSurrogates_map, Option.map_some, String.ofList_toList]

/-! ### Numbers -/

theorem isNumberChar_of_isDigit {c : Char} (h : c.isDigit = true) : isNumberChar c = true := by
  rw [isNumberChar, h]
  rfl

/-- An exponent is its letter, perhaps a sign, and digits. -/
theorem isNumberChar_of_exponent {cs : List Char} (h : (Decimal.readExponent? cs).isSome = true) :
    ∀ c ∈ cs, isNumberChar c = true := by
  revert h
  fun_cases Decimal.readExponent? cs with
  | case1 => exact fun _ _ hc => (List.not_mem_nil hc).elim
  | case2 => exact nofun
  | case3 c rest hletter negative ds hrest hds =>
    intro _
    have hc : isNumberChar c = true := by
      rcases hletter with rfl | rfl <;> rfl
    have hdigits : ∀ d ∈ ds, isNumberChar d = true := by
      simp only [Bool.or_eq_true, Bool.not_eq_true', not_or, Bool.not_eq_false] at hds
      exact fun d hd => isNumberChar_of_isDigit (List.all_eq_true.mp hds.2 d hd)
    refine List.forall_mem_cons.mpr ⟨hc, ?_⟩
    split at hrest
    · cases hrest
      exact List.forall_mem_cons.mpr ⟨rfl, hdigits⟩
    · cases hrest
      exact List.forall_mem_cons.mpr ⟨rfl, hdigits⟩
    · cases hrest
      exact hdigits
  | case4 => exact nofun

theorem isDigit_of_splitDigits (cs : List Char) :
    ∀ c ∈ (Decimal.splitDigits cs).1, c.isDigit = true :=
  fun c hc => List.all_eq_true.mp List.all_takeWhile c hc

theorem isNumberChar_of_splitDigits (cs : List Char) :
    ∀ c ∈ (Decimal.splitDigits cs).1, isNumberChar c = true :=
  fun c hc => isNumberChar_of_isDigit (isDigit_of_splitDigits cs c hc)

theorem isNumberChar_of_unsigned {cs : List Char} (h : isUnsignedNumber cs = true) :
    ∀ c ∈ cs, isNumberChar c = true := by
  rw [← Decimal.splitDigits_append cs, List.forall_mem_append]
  refine ⟨isNumberChar_of_splitDigits cs, ?_⟩
  simp only [isUnsignedNumber, Bool.and_eq_true] at h
  obtain ⟨-, h⟩ := h
  split at h
  · next rest hrest =>
    rw [hrest]
    rw [Bool.and_eq_true] at h
    refine List.forall_mem_cons.mpr ⟨rfl, ?_⟩
    rw [← Decimal.splitDigits_append rest, List.forall_mem_append]
    exact ⟨isNumberChar_of_splitDigits rest, isNumberChar_of_exponent h.2⟩
  · exact isNumberChar_of_exponent h

theorem isNumberChar_of_isNumber {cs : List Char} (h : isNumber cs = true) :
    ∀ c ∈ cs, isNumberChar c = true := by
  unfold isNumber at h
  split at h
  · exact List.forall_mem_cons.mpr ⟨rfl, isNumberChar_of_unsigned h⟩
  · exact isNumberChar_of_unsigned h

/-- A number begins with a digit or its sign. -/
theorem head_of_isNumber {cs : List Char} (h : isNumber cs = true) :
    ∃ c rest, cs = c :: rest ∧ (c = '-' ∨ c.isDigit = true) := by
  unfold isNumber at h
  split at h
  · next rest => exact ⟨'-', rest, rfl, .inl rfl⟩
  · next _ =>
    simp only [isUnsignedNumber, Bool.and_eq_true, isWholePart, Bool.not_eq_true',
      List.isEmpty_eq_false_iff] at h
    obtain ⟨⟨hne, -⟩, -⟩ := h
    obtain ⟨c, whole, hwhole⟩ := List.exists_cons_of_ne_nil hne
    have hcs := Decimal.splitDigits_append cs
    rw [hwhole, List.cons_append] at hcs
    have hdigit := isDigit_of_splitDigits cs c (by rw [hwhole]; exact List.mem_cons_self)
    exact ⟨c, _, hcs.symm, .inr hdigit⟩

/-! ### Scalars -/

section Scalars

variable {rest : List Char}

/-- No number begins like a word, a string, an array or an object. -/
theorem ne_of_sign_or_digit {c d : Char} (hc : c = '-' ∨ c.isDigit = true)
    (hd : d ≠ '-' ∧ d.isDigit = false) : c ≠ d := by
  rintro rfl
  rcases hc with rfl | hc
  · exact hd.1 rfl
  · rw [hd.2] at hc
    cases hc

theorem yields_scalar_number {raw : String} (h : isNumber raw.toList = true)
    (hrest : Ends rest) : Yields readScalar (raw.toList ++ rest) (.number raw) rest := by
  have hchars := isNumberChar_of_isNumber h
  obtain ⟨c, cs, hcs, hc⟩ := head_of_isNumber h
  rw [hcs] at h hchars
  have hchars := fun d hd => hchars d (List.mem_cons_of_mem c hd)
  rw [hcs, List.cons_append]
  refine ⟨?_, ?_⟩
  · rw [List.length_cons, List.length_append]
    omega
  · rw [readScalar, Text.takeWhile_append_of_head? hchars hrest, if_pos h]
    · simp only [Text.dropWhile_append_of_head? hchars hrest, ← hcs, String.ofList_toList]
    -- the cases of the reader that come before the one for numbers
    · exact fun _ h _ => ne_of_sign_or_digit hc (by decide) h
    · exact fun _ h _ => ne_of_sign_or_digit hc (by decide) h
    · exact fun _ h _ => ne_of_sign_or_digit hc (by decide) h
    · exact ne_of_sign_or_digit hc (by decide)

theorem yields_scalar_string (s : String) :
    Yields readScalar (writeString s.toList ++ rest) (.text s) rest := by
  obtain ⟨hlt, h⟩ := yields_string s rest
  have hwrite : writeString s.toList ++ rest = '"' :: (s.toList.flatMap escape ++ '"' :: rest) := by
    rw [writeString, List.append_assoc]
    rfl
  rw [hwrite]
  refine ⟨Nat.lt_succ_of_lt hlt, ?_⟩
  rw [readScalar, h]
  rfl

end Scalars

/-! ### Arrays and objects -/

section Parts

variable {cs mid next rest : List Char}

theorem yields_items_more {x : Json} {xs : List Json} (hx : Yields readValue (skip cs) x mid)
    (hcomma : Yields (expect ',') mid () next) (h : Yields readItems next xs rest) :
    Yields readItems cs (x :: xs) rest := by
  obtain ⟨hmid, hx⟩ := hx
  obtain ⟨hnext, hcomma⟩ := hcomma
  obtain ⟨hrest, h⟩ := h
  have hle := skip_length_le cs
  refine ⟨by omega, ?_⟩
  rw [readItems, hx]
  simp only [Option.bind_eq_bind, Option.bind_some, hcomma, h]
  rfl

theorem yields_items_last {x : Json} (hx : Yields readValue (skip cs) x mid)
    (hcomma : expect ',' mid = none) (h : Yields (expect ']') mid () rest) :
    Yields readItems cs [x] rest := by
  obtain ⟨hmid, hx⟩ := hx
  obtain ⟨hrest, h⟩ := h
  have hle := skip_length_le cs
  refine ⟨by omega, ?_⟩
  rw [readItems, hx]
  simp only [Option.bind_eq_bind, Option.bind_some, hcomma, h]
  rfl

theorem yields_array {items : List Json} (hclose : expect ']' cs = none)
    (h : Yields readItems cs items rest) :
    Yields readValue ('[' :: cs) (.array items) rest := by
  obtain ⟨hlt, h⟩ := h
  refine ⟨Nat.lt_succ_of_lt hlt, ?_⟩
  rw [readValue, hclose]
  simp only [h]
  rfl

variable {key : Option String} {behind : List Char}

theorem yields_members_more {x : Json} {members : List (Option String × Json)}
    (hkey : Yields readKey cs key behind) (hx : Yields readValue (skip behind) x mid)
    (hcomma : Yields (expect ',') mid () next) (h : Yields readMembers next members rest) :
    Yields readMembers cs ((key, x) :: members) rest := by
  obtain ⟨hbehind, hkey⟩ := hkey
  obtain ⟨hmid, hx⟩ := hx
  obtain ⟨hnext, hcomma⟩ := hcomma
  obtain ⟨hrest, h⟩ := h
  have hle := skip_length_le behind
  refine ⟨by omega, ?_⟩
  rw [readMembers, hkey]
  simp only [Option.bind_eq_bind, Option.bind_some, hx, hcomma, h]
  rfl

theorem yields_members_last {x : Json} (hkey : Yields readKey cs key behind)
    (hx : Yields readValue (skip behind) x mid)
    (hcomma : expect ',' mid = none) (h : Yields (expect '\x7d') mid () rest) :
    Yields readMembers cs [(key, x)] rest := by
  obtain ⟨hbehind, hkey⟩ := hkey
  obtain ⟨hmid, hx⟩ := hx
  obtain ⟨hrest, h⟩ := h
  have hle := skip_length_le behind
  refine ⟨by omega, ?_⟩
  rw [readMembers, hkey]
  simp only [Option.bind_eq_bind, Option.bind_some, hx, hcomma, h]
  rfl

theorem yields_object {members : List (Option String × Json)} (hclose : expect '\x7d' cs = none)
    (h : Yields readMembers cs members rest) :
    Yields readValue ('\x7b' :: cs) (.object members) rest := by
  obtain ⟨hlt, h⟩ := h
  refine ⟨Nat.lt_succ_of_lt hlt, ?_⟩
  rw [readValue, hclose]
  simp only [h]
  rfl

theorem yields_key {gap : List Char} (hgap : ∀ c ∈ gap, isSpace c = true) (s : String) :
    Yields readKey (gap ++ (writeString s.toList ++ ':' :: rest)) (some s) rest := by
  obtain ⟨hquote, h⟩ := yields_expect hgap (c := '"') rfl
    (s.toList.flatMap escape ++ '"' :: (':' :: rest))
  obtain ⟨hkey, h'⟩ := yields_string s (':' :: rest)
  obtain ⟨hcolon, h''⟩ := yields_expect_head (c := ':') rfl rest
  have hwrite : gap ++ (writeString s.toList ++ ':' :: rest) =
      gap ++ '"' :: (s.toList.flatMap escape ++ '"' :: ':' :: rest) := by
    rw [writeString, List.append_assoc]
    rfl
  rw [hwrite]
  refine ⟨by omega, ?_⟩
  rw [readKey, h]
  simp only [Option.bind_eq_bind, Option.bind_some, h', h'']
  rfl

end Parts

/-! ### Values -/

/-- A value that is written is read in front of whatever ends a number. -/
def Reads (layout : Layout) (j : Json) : Prop :=
  ∀ depth rest, Ends rest → Yields readValue (write layout depth j ++ rest) j rest

section Values

variable {layout : Layout}

theorem isSpace_of_sign_or_digit {c : Char} (h : c = '-' ∨ c.isDigit = true) :
    isSpace c = false := by
  rw [← Bool.not_eq_true]
  intro hspace
  simp only [isSpace, Bool.or_eq_true, beq_iff_eq] at hspace
  rcases hspace with ((rfl | rfl) | rfl) | rfl <;> exact ne_of_sign_or_digit h (by decide) rfl

/-- No value begins with a blank or a closing bracket. -/
theorem head_of_write (layout : Layout) {j : Json} (h : Writable j) (depth : Nat) :
    ∃ c cs, write layout depth j = c :: cs ∧ isSpace c = false ∧ c ≠ ']' := by
  cases h with
  | null => exact ⟨'n', _, by rw [write]; rfl, rfl, by decide⟩
  | bool b =>
    cases b
    · exact ⟨'f', _, by rw [write]; rfl, rfl, by decide⟩
    · exact ⟨'t', _, by rw [write]; rfl, rfl, by decide⟩
  | number hraw =>
    obtain ⟨c, cs, hcs, hc⟩ := head_of_isNumber hraw
    exact ⟨c, cs, by rw [write, hcs], isSpace_of_sign_or_digit hc,
      ne_of_sign_or_digit hc (by decide)⟩
  | text s => exact ⟨'"', _, by rw [text, write]; rfl, rfl, by decide⟩
  | @array items _ =>
    cases items with
    | nil => exact ⟨'[', _, by rw [write], rfl, by decide⟩
    | cons x xs => exact ⟨'[', _, by rw [write]; rfl, rfl, by decide⟩
  | @object members _ _ =>
    cases members with
    | nil => exact ⟨'\x7b', _, by rw [write], rfl, by decide⟩
    | cons m ms => exact ⟨'\x7b', _, by rw [write]; rfl, rfl, by decide⟩

theorem skip_gap_write {gap : List Char}
    (hgap : ∀ c ∈ gap, isSpace c = true) {j : Json} (h : Writable j) (depth : Nat)
    (rest : List Char) :
    skip (gap ++ (write layout depth j ++ rest)) = write layout depth j ++ rest := by
  obtain ⟨c, cs, hcs, hc, -⟩ := head_of_write layout h depth
  rw [skip_append hgap, hcs, List.cons_append, skip_cons hc]

theorem yields_items (hlayout : layout.IsBlank) {x : Json} {xs : List Json}
    (hw : ∀ y ∈ x :: xs, Writable y) (hr : ∀ y ∈ x :: xs, Reads layout y) (depth : Nat)
    (rest : List Char) :
    Yields readItems (layout.gap (depth + 1) ++ (write layout (depth + 1) x ++
      (writeItems layout (depth + 1) xs ++ (layout.gap depth ++ ']' :: rest)))) (x :: xs) rest := by
  -- by the items behind the first one, each of which is the first of what is left
  induction xs generalizing x with
  | nil =>
    rw [writeItems, List.nil_append]
    have hx := hr x List.mem_cons_self (depth + 1) (layout.gap depth ++ ']' :: rest)
      (ends_append (hlayout.gap depth) (ends_cons rfl rest))
    rw [← skip_gap_write (hlayout.gap (depth + 1)) (hw x List.mem_cons_self)] at hx
    exact yields_items_last hx (expect_eq_none (hlayout.gap depth) rfl (by decide) rest)
      (yields_expect (hlayout.gap depth) rfl rest)
  | cons y ys ih =>
    have hrest := ih (fun z hz => hw z (List.mem_cons_of_mem x hz))
      (fun z hz => hr z (List.mem_cons_of_mem x hz))
    rw [writeItems]
    simp only [List.cons_append, List.append_assoc]
    -- a comma ends the number that the item may be
    have hx := hr x List.mem_cons_self (depth + 1) _ (ends_cons (c := ',') rfl
      (layout.gap (depth + 1) ++ (write layout (depth + 1) y ++
      (writeItems layout (depth + 1) ys ++ (layout.gap depth ++ ']' :: rest)))))
    rw [← skip_gap_write (hlayout.gap (depth + 1)) (hw x List.mem_cons_self)] at hx
    exact yields_items_more hx (yields_expect_head rfl _) hrest

theorem yields_members (hlayout : layout.IsBlank) {key : String} {x : Json}
    {ms : List (Option String × Json)}
    (hkeys : ∀ m ∈ ms, m.1.isSome = true)
    (hw : ∀ m ∈ (some key, x) :: ms, Writable m.2)
    (hr : ∀ m ∈ (some key, x) :: ms, Reads layout m.2) (depth : Nat)
    (rest : List Char) :
    Yields readMembers (layout.gap (depth + 1) ++ (writeString key.toList ++
      (':' :: (layout.afterColon ++ (write layout (depth + 1) x ++
        (writeMembers layout (depth + 1) ms ++ (layout.gap depth ++ '\x7d' :: rest)))))))
      ((some key, x) :: ms) rest := by
  induction ms generalizing key x with
  | nil =>
    rw [writeMembers, List.nil_append]
    have hx := hr _ List.mem_cons_self (depth + 1) (layout.gap depth ++ '\x7d' :: rest)
      (ends_append (hlayout.gap depth) (ends_cons rfl rest))
    rw [← skip_gap_write hlayout.afterColon (hw _ List.mem_cons_self)] at hx
    exact yields_members_last (yields_key (hlayout.gap (depth + 1)) key) hx
      (expect_eq_none (hlayout.gap depth) rfl (by decide) rest)
      (yields_expect (hlayout.gap depth) rfl rest)
  | cons m ms ih =>
    obtain ⟨k, y⟩ := m
    obtain ⟨k, rfl⟩ := Option.isSome_iff_exists.mp (hkeys _ List.mem_cons_self)
    have hrest := ih (fun z hz => hkeys z (List.mem_cons_of_mem _ hz))
      (fun z hz => hw z (List.mem_cons_of_mem _ hz)) (fun z hz => hr z (List.mem_cons_of_mem _ hz))
    rw [writeMembers]
    simp only [List.cons_append, List.append_assoc]
    have hx := hr _ List.mem_cons_self (depth + 1) _ (ends_cons (c := ',') rfl
      (layout.gap (depth + 1) ++ (writeString k.toList ++
      (':' :: (layout.afterColon ++ (write layout (depth + 1) y ++
        (writeMembers layout (depth + 1) ms ++ (layout.gap depth ++ '\x7d' :: rest))))))))
    rw [← skip_gap_write hlayout.afterColon (hw _ List.mem_cons_self)] at hx
    exact yields_members_more (yields_key (hlayout.gap (depth + 1)) key) hx
      (yields_expect_head rfl _) hrest

/-- What begins with no bracket is a scalar. -/
theorem yields_scalar {c : Char} (hc : c ≠ '[' ∧ c ≠ '\x7b') {cs rest : List Char} {j : Json}
    (h : Yields readScalar (c :: cs) j rest) : Yields readValue (c :: cs) j rest := by
  obtain ⟨hlt, h⟩ := h
  refine ⟨hlt, ?_⟩
  rw [readValue, h]
  · rintro _ ⟨⟩
    exact hc.1 rfl
  · rintro _ ⟨⟩
    exact hc.2 rfl

/-- An array without items, or an object without members. -/
theorem reads_nil : Reads layout (.array []) ∧ Reads layout (.object []) := by
  constructor
  · intro depth rest _
    obtain ⟨hlt, h⟩ := yields_expect_head (c := ']') rfl rest
    rw [write_array_nil]
    refine ⟨Nat.lt_succ_of_lt hlt, ?_⟩
    show readValue ('[' :: ']' :: rest) = _
    rw [readValue, h]
    rfl
  · intro depth rest _
    obtain ⟨hlt, h⟩ := yields_expect_head (c := '\x7d') rfl rest
    rw [write_object_nil]
    refine ⟨Nat.lt_succ_of_lt hlt, ?_⟩
    show readValue ('\x7b' :: '\x7d' :: rest) = _
    rw [readValue, h]
    rfl

/-- What is written of a value is read back. -/
theorem reads_of_writable (hlayout : layout.IsBlank) {j : Json} (h : Writable j) :
    Reads layout j := by
  induction h with
  | null =>
    intro depth rest _
    rw [write]
    exact yields_scalar (by decide) ⟨_, rfl⟩
  | bool b =>
    intro depth rest _
    rw [write]
    cases b
    · exact yields_scalar (by decide) ⟨_, rfl⟩
    · exact yields_scalar (by decide) ⟨_, rfl⟩
  | @number raw h =>
    intro depth rest hrest
    obtain ⟨c, cs, hcs, hc⟩ := head_of_isNumber h
    have hread := yields_scalar_number h hrest
    rw [write]
    rw [hcs] at hread ⊢
    exact yields_scalar ⟨ne_of_sign_or_digit hc (by decide), ne_of_sign_or_digit hc (by decide)⟩
      hread
  | text s =>
    intro depth rest _
    rw [text, write]
    exact yields_scalar (by decide) (yields_scalar_string s)
  | @array items hw ih =>
    cases items with
    | nil => exact reads_nil.1
    | cons x xs =>
      intro depth rest _
      rw [write]
      simp only [List.cons_append, List.append_assoc, List.nil_append]
      -- the first item shows that the array is not closed at once
      have hclose : expect ']' (layout.gap (depth + 1) ++ (write layout (depth + 1) x ++
          (writeItems layout (depth + 1) xs ++ (layout.gap depth ++ ']' :: rest)))) = none := by
        obtain ⟨c, cs, hcs, hc, hne⟩ :=
          head_of_write layout (hw x List.mem_cons_self) (depth + 1)
        rw [hcs, List.cons_append]
        exact expect_eq_none (hlayout.gap _) hc hne _
      exact yields_array hclose (yields_items hlayout hw ih depth rest)
  | @object members hkeys hw ih =>
    cases members with
    | nil => exact reads_nil.2
    | cons m ms =>
      intro depth rest _
      obtain ⟨k, x⟩ := m
      obtain ⟨k, rfl⟩ := Option.isSome_iff_exists.mp (hkeys _ List.mem_cons_self)
      rw [write]
      simp only [List.cons_append, List.append_assoc, List.nil_append]
      refine yields_object (expect_eq_none (hlayout.gap _) rfl (by decide) _) ?_
      exact yields_members hlayout (fun m hm => hkeys m (List.mem_cons_of_mem _ hm)) hw ih depth
        rest

/-- The text of a value is read as the value, whatever its layout. -/
theorem parse?_print (hlayout : layout.IsBlank) {j : Json} (h : Writable j) :
    parse? (print layout j) = some j := by
  have hread := reads_of_writable hlayout h 0 [] nofun
  rw [List.append_nil] at hread
  obtain ⟨_, hread⟩ := hread
  obtain ⟨c, cs, hcs, hc, -⟩ := head_of_write layout h 0
  have hskip : skip (write layout 0 j) = write layout 0 j := by
    rw [hcs, skip_cons hc]
  rw [parse?, print, String.toList_ofList, hskip, hread]
  rfl

end Values

end QueryTrace.Json

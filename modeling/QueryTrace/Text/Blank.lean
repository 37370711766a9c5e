/-
Blank characters and trimming.

A character is blank when it has the Unicode property `White_Space`; the table below lists all
twenty-five of them, so the no-break space is blank and the zero-width space is not.

* `isBlank_of_isWhitespace` — every blank of plain ASCII text is blank here;
* `Text.trimEnd` and `Text.trim` drop blanks from the ends and nothing else
  (`trimEnd_eq_nil_iff`);
* `trim_append_blank` and `trim_append_ne` — what is trimmed of two texts together;
* `exists_blank_trimStart` and `exists_trimEnd_blank` — what is dropped is blank;
* `trim_of_not_blank` and `trim_trim` — when there is nothing to trim.

Design notes: trimming is stated on lists of characters, where proofs live; `trimText` and
`trimEndText` are the same functions on strings.
-/
namespace QueryTrace.Text

/-- The characters with the property `White_Space`, as closed intervals of code points. -/
def blankRanges : List (Nat × Nat) :=
  [(0x09, 0x0D), (0x20, 0x20), (0x85, 0x85), (0xA0, 0xA0), (0x1680, 0x1680), (0x2000, 0x200A),
   (0x2028, 0x2029), (0x202F, 0x202F), (0x205F, 0x205F), (0x3000, 0x3000)]

/-- Is the character white space? -/
def isBlank (c : Char) : Bool :=
  blankRanges.any fun r => r.1 ≤ c.toNat && c.toNat ≤ r.2

theorem isBlank_of_isWhitespace {c : Char} (h : c.isWhitespace = true) : isBlank c = true := by
  simp only [Char.isWhitespace, Bool.or_eq_true, decide_eq_true_eq] at h
  rcases h with ((rfl | rfl) | rfl) | rfl <;> decide

theorem isBlank_of_isDigit {c : Char} (h : c.isDigit = true) : isBlank c = false := by
  simp only [Char.isDigit, Bool.and_eq_true, decide_eq_true_eq] at h
  obtain ⟨h1, h2⟩ := h
  have h1 : 48 ≤ c.toNat := UInt32.le_iff_toNat_le.mp h1
  have h2 : c.toNat ≤ 57 := UInt32.le_iff_toNat_le.mp h2
  rw [isBlank, List.any_eq_false]
  intro r hr
  have hr : r.2 < 48 ∨ 57 < r.1 := by
    revert r
    decide
  rw [Bool.and_eq_true, decide_eq_true_eq, decide_eq_true_eq]
  omega

/-! ### Trimming -/

/-- The text without its leading blanks. -/
def trimStart (cs : List Char) : List Char :=
  cs.dropWhile isBlank

/-- The text without its trailing blanks. -/
def trimEnd (cs : List Char) : List Char :=
  (cs.reverse.dropWhile isBlank).reverse

/-- The text without the blanks at either end. -/
def trim (cs : List Char) : List Char :=
  trimEnd (trimStart cs)

/-- Does the text consist of blanks only? -/
def isBlankText (cs : List Char) : Bool :=
  cs.all isBlank

theorem dropWhile_eq_nil_iff_all {α : Type} {p : α → Bool} {l : List α} :
    l.dropWhile p = [] ↔ l.all p = true := by
  induction l with
  | nil => simp
  | cons a l ih =>
    rw [List.dropWhile_cons]
    cases h : p a <;> simp_all

/-- What is of one kind is taken up to the first element that is not. -/
theorem takeWhile_append_of_head? {α : Type} {p : α → Bool} {l rest : List α}
    (h : ∀ a ∈ l, p a = true) (hrest : ∀ a ∈ rest.head?, p a = false) :
    (l ++ rest).takeWhile p = l := by
  rw [List.takeWhile_append_of_pos h]
  cases rest with
  | nil => rw [List.takeWhile_nil, List.append_nil]
  | cons a rest => rw [List.takeWhile_cons_of_neg (by simp [hrest a rfl]), List.append_nil]

theorem dropWhile_append_of_head? {α : Type} {p : α → Bool} {l rest : List α}
    (h : ∀ a ∈ l, p a = true) (hrest : ∀ a ∈ rest.head?, p a = false) :
    (l ++ rest).dropWhile p = rest := by
  rw [List.dropWhile_append_of_pos h]
  cases rest with
  | nil => rfl
  | cons a rest => rw [List.dropWhile_cons_of_neg (by simp [hrest a rfl])]

theorem trimEnd_eq_nil_iff {cs : List Char} : trimEnd cs = [] ↔ isBlankText cs = true := by
  rw [trimEnd, isBlankText, List.reverse_eq_nil_iff, dropWhile_eq_nil_iff_all, List.all_reverse]

/-! ### Trimming two texts together -/

section Append

variable {cs ds : List Char}

theorem trimStart_blank_append (h : isBlankText cs = true) :
    trimStart (cs ++ ds) = trimStart ds := by
  have hcs : cs.dropWhile isBlank = [] := dropWhile_eq_nil_iff_all.mpr h
  rw [trimStart, List.dropWhile_append, hcs]
  rfl

theorem trimStart_append (h : isBlankText cs = false) :
    trimStart (cs ++ ds) = trimStart cs ++ ds := by
  have hcs : (cs.dropWhile isBlank).isEmpty = false := by
    rw [List.isEmpty_eq_false_iff, ne_eq, dropWhile_eq_nil_iff_all]
    exact Bool.eq_false_iff.mp h
  rw [trimStart, List.dropWhile_append, hcs]
  rfl

theorem trimEnd_append_blank (h : isBlankText ds = true) : trimEnd (cs ++ ds) = trimEnd cs := by
  have hds : isBlankText ds.reverse = true := by rwa [isBlankText, List.all_reverse]
  rw [trimEnd, List.reverse_append]
  exact congrArg List.reverse (trimStart_blank_append hds)

theorem trimEnd_append (h : isBlankText ds = false) : trimEnd (cs ++ ds) = cs ++ trimEnd ds := by
  have hds : isBlankText ds.reverse = false := by rwa [isBlankText, List.all_reverse]
  have hstart : trimStart (ds.reverse ++ cs.reverse) = trimStart ds.reverse ++ cs.reverse :=
    trimStart_append hds
  rw [trimEnd, List.reverse_append]
  show (trimStart _).reverse = _
  rw [hstart, List.reverse_append, List.reverse_reverse]
  rfl

theorem isBlankText_append : isBlankText (cs ++ ds) = (isBlankText cs && isBlankText ds) :=
  List.all_append

theorem trim_append_blank (h : isBlankText ds = true) : trim (cs ++ ds) = trim cs := by
  cases hcs : isBlankText cs with
  | true =>
    have hends : ∀ es, isBlankText es = true → trim es = [] := by
      intro es hes
      rw [trim, trimStart, dropWhile_eq_nil_iff_all.mpr hes]
      rfl
    rw [hends cs hcs, hends (cs ++ ds) (by rw [isBlankText_append, hcs, h]; rfl)]
  | false => rw [trim, trimStart_append hcs, trimEnd_append_blank h, trim]

/-- Text that is not blank makes the text in front of it longer, blanks or not. -/
theorem trim_append_ne (hcs : isBlankText cs = false) (hds : isBlankText ds = false) :
    trim (cs ++ ds) ≠ trim cs := by
  have hlong : trim (cs ++ ds) = trimStart cs ++ trimEnd ds := by
    rw [trim, trimStart_append hcs, trimEnd_append hds]
  have hne : trimEnd ds ≠ [] := by
    rw [ne_eq, trimEnd_eq_nil_iff, hds]
    exact Bool.false_ne_true
  intro heq
  have hlen := congrArg List.length heq
  have hpos := List.length_pos_iff.mpr hne
  have hle : (trim cs).length ≤ (trimStart cs).length :=
    calc (trim cs).length
      _ = ((trimStart cs).reverse.dropWhile isBlank).length := List.length_reverse
      _ ≤ (trimStart cs).reverse.length := (List.dropWhile_suffix _).length_le
      _ = (trimStart cs).length := List.length_reverse
  rw [hlong, List.length_append] at hlen
  omega

end Append

/-! ### Trimmed texts -/

/-- What is trimmed off the front is blank. -/
theorem exists_blank_trimStart (cs : List Char) :
    ∃ blanks, isBlankText blanks = true ∧ blanks ++ trimStart cs = cs :=
  ⟨cs.takeWhile isBlank, List.all_takeWhile, List.takeWhile_append_dropWhile⟩

/-- What is trimmed off the end is blank. -/
theorem exists_trimEnd_blank (cs : List Char) :
    ∃ blanks, isBlankText blanks = true ∧ trimEnd cs ++ blanks = cs := by
  obtain ⟨blanks, hblanks, hcs⟩ := exists_blank_trimStart cs.reverse
  refine ⟨blanks.reverse, by rwa [isBlankText, List.all_reverse], ?_⟩
  have hback := congrArg List.reverse hcs
  rwa [List.reverse_append, List.reverse_reverse] at hback

/-- A text that ends in a character, up to blanks. -/
theorem exists_of_getLast?_trimEnd {cs : List Char} {c : Char}
    (h : (trimEnd cs).getLast? = some c) :
    ∃ front blanks, cs = front ++ c :: blanks ∧ isBlankText blanks = true := by
  obtain ⟨front, hfront⟩ := List.getLast?_eq_some_iff.mp h
  obtain ⟨blanks, hblanks, hcs⟩ := exists_trimEnd_blank cs
  rw [hfront, List.append_assoc] at hcs
  exact ⟨front, blanks, hcs.symm, hblanks⟩

theorem isBlank_of_head?_trimStart (cs : List Char) :
    ∀ c ∈ (trimStart cs).head?, isBlank c = false := by
  intro c hc
  have h := List.head?_dropWhile_not isBlank cs
  rw [← trimStart, hc] at h
  exact h

theorem isBlank_of_getLast?_trimEnd (cs : List Char) :
    ∀ c ∈ (trimEnd cs).getLast?, isBlank c = false := by
  intro c hc
  rw [trimEnd, List.getLast?_reverse] at hc
  exact isBlank_of_head?_trimStart cs.reverse c hc

theorem isBlank_of_head?_trim (cs : List Char) : ∀ c ∈ (trim cs).head?, isBlank c = false := by
  intro c hc
  obtain ⟨blanks, -, hcs⟩ := exists_trimEnd_blank (trimStart cs)
  refine isBlank_of_head?_trimStart cs c ?_
  rw [← hcs, ← trim, List.head?_append, hc]
  rfl

/-- Text that begins and ends with characters that are not blank is trimmed already. -/
theorem trim_of_not_blank {cs : List Char} (hhead : ∀ c ∈ cs.head?, isBlank c = false)
    (hlast : ∀ c ∈ cs.getLast?, isBlank c = false) : trim cs = cs := by
  have hstart : trimStart cs = cs := by
    cases cs with
    | nil => rfl
    | cons c cs =>
      rw [trimStart, List.dropWhile_cons, hhead c rfl]
      rfl
  rw [trim, hstart]
  rcases List.eq_nil_or_concat cs with rfl | ⟨front, c, rfl⟩
  · rfl
  · have hc : isBlank c = false := hlast c (by simp)
    rw [List.concat_eq_append, trimEnd, List.reverse_append, List.reverse_singleton,
      List.singleton_append, List.dropWhile_cons, hc]
    simp

/-- Trimmed text has nothing to trim. -/
theorem trim_trim (cs : List Char) : trim (trim cs) = trim cs :=
  trim_of_not_blank (isBlank_of_head?_trim cs) (isBlank_of_getLast?_trimEnd (trimStart cs))

/-! ### Strings -/

/-- `trim` on strings. -/
def trimText (s : String) : String :=
  String.ofList (trim s.toList)

/-- `trimEnd` on strings. -/
def trimEndText (s : String) : String :=
  String.ofList (trimEnd s.toList)

end QueryTrace.Text

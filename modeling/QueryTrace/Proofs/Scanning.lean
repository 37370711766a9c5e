/-
The tokens of a text, read from its front.

A text that was put together from known pieces has the tokens of the pieces.  Each lemma here takes
one piece off the front of a text.

* `tokensOf_blank`, `tokensOf_mark`, `tokensOf_word`, `tokensOf_quoted`, `tokensOf_quote` — one
  equation for each kind of piece;
* `IsName` holds of the tokens that are a word or a mark, and `tokensOf_name` takes one off, or
  `tokensOf_name_mark` one with a mark behind it;
* `Lexed` — which lists of lexemes are those of a text, and **`Lexed.lexemes_text`**: the text that
  they spell falls apart into them again;
* `Scanned` — which lists of tokens are those of a text.

Design notes: a word ends where the text behind it begins with a character of another kind.  The
lemmas about words ask that of the text behind the piece, and the lemmas about marks and quoted
texts ask nothing.
-/
import QueryTrace.Token
import QueryTrace.Text.Digit

namespace QueryTrace.Token

/-- The tokens of a text, as a list of characters. -/
def tokensOf (cs : List Char) : List Token :=
  (lexemes cs).flatMap Lexeme.tokens

/-- Does no word go on at the front of the text? -/
def Breaks (cs : List Char) : Prop :=
  ∀ c ∈ cs.head?, isWordChar c = false

/-! ### Kinds of character -/

theorem breaks_nil : Breaks [] := by
  simp [Breaks]

theorem breaks_cons {c : Char} (h : isWordChar c = false) (cs : List Char) : Breaks (c :: cs) := by
  simpa [Breaks] using h

theorem isWordChar_of_isBlank {c : Char} (h : Text.isBlank c = true) : isWordChar c = false := by
  rw [isWordChar, h]
  rfl

theorem isWordChar_of_mark {c : Char} (h : marks.contains c = true) : isWordChar c = false := by
  rw [isWordChar, h]
  simp

theorem isWordChar_of_quote {c : Char} (h : quotes.contains c = true) : isWordChar c = false := by
  rw [isWordChar, h]
  simp

theorem not_mark_of_quote {c : Char} (h : quotes.contains c = true) :
    marks.contains c = false := by
  have hall : quotes.all (fun c => !marks.contains c) = true := by decide
  simpa using List.all_eq_true.mp hall c (List.contains_iff_mem.mp h)

theorem isBlank_of_isWordChar {c : Char} (h : isWordChar c = true) : Text.isBlank c = false := by
  refine Bool.eq_false_iff.mpr fun hb => ?_
  rw [isWordChar_of_isBlank hb] at h
  cases h

theorem isBlank_of_mark {c : Char} (h : marks.contains c = true) : Text.isBlank c = false := by
  have hall : marks.all (fun c => !Text.isBlank c) = true := by decide
  simpa using List.all_eq_true.mp hall c (List.contains_iff_mem.mp h)

theorem isBlank_of_quote {c : Char} (h : quotes.contains c = true) : Text.isBlank c = false := by
  have hall : quotes.all (fun c => !Text.isBlank c) = true := by decide
  simpa using List.all_eq_true.mp hall c (List.contains_iff_mem.mp h)

theorem not_quote_of_isBlank {c : Char} (h : Text.isBlank c = true) :
    quotes.contains c = false := by
  refine Bool.eq_false_iff.mpr fun hq => ?_
  rw [isBlank_of_quote hq] at h
  cases h

theorem not_quote_of_mark {c : Char} (h : marks.contains c = true) :
    quotes.contains c = false := by
  refine Bool.eq_false_iff.mpr fun hq => ?_
  rw [not_mark_of_quote hq] at h
  cases h

theorem not_quote_of_isWordChar {c : Char} (h : isWordChar c = true) :
    quotes.contains c = false := by
  refine Bool.eq_false_iff.mpr fun hq => ?_
  rw [isWordChar_of_quote hq] at h
  cases h

/-- Digits go into words: the runs of digits have no blank, quote or mark in them. -/
theorem isWordChar_of_isDecimalDigit {c : Char} (h : Text.isDecimalDigit c = true) :
    isWordChar c = true := by
  obtain ⟨z, hz, hc⟩ := List.any_eq_true.mp h
  simp only [Bool.and_eq_true, decide_eq_true_eq] at hc
  have hblank : Text.digitZeros.all (fun z => Text.blankRanges.all fun r =>
      decide (r.2 < z) || decide (z + 10 ≤ r.1)) = true := by decide
  have hother : Text.digitZeros.all (fun z => (quotes ++ marks).all fun m =>
      decide (m.toNat < z) || decide (z + 10 ≤ m.toNat)) = true := by decide
  have hb : Text.isBlank c = false := by
    rw [Text.isBlank, List.any_eq_false]
    intro r hr
    have := List.all_eq_true.mp (List.all_eq_true.mp hblank z hz) r hr
    simp only [Bool.or_eq_true, decide_eq_true_eq, Bool.and_eq_true] at this ⊢
    omega
  have ho : c ∉ quotes ++ marks := by
    intro hm
    have := List.all_eq_true.mp (List.all_eq_true.mp hother z hz) c hm
    simp only [Bool.or_eq_true, decide_eq_true_eq] at this
    omega
  rw [List.mem_append, not_or] at ho
  simp [isWordChar, hb, ho.1, ho.2]

/-! ### Pieces of text -/

@[simp] theorem tokensOf_nil : tokensOf [] = [] := by
  rw [tokensOf, lexemes_nil]
  rfl

theorem tokensOf_blank {c : Char} (h : Text.isBlank c = true) (rest : List Char) :
    tokensOf (c :: rest) = tokensOf rest := by
  rw [tokensOf, lexemes_blank h]
  rfl

@[simp] theorem tokensOf_space (rest : List Char) : tokensOf (' ' :: rest) = tokensOf rest :=
  tokensOf_blank (by decide) rest

theorem tokensOf_mark {c : Char} (h : marks.contains c = true) (rest : List Char) :
    tokensOf (c :: rest) = c.toString :: tokensOf rest := by
  rw [tokensOf, lexemes_mark h]
  rfl

/-- Is the token a word? -/
def IsWord (t : Token) : Prop :=
  t.toList ≠ [] ∧ ∀ c ∈ t.toList, isWordChar c = true

instance (t : Token) : Decidable (IsWord t) :=
  decidable_of_iff ((!t.toList.isEmpty && t.toList.all isWordChar) = true) (by simp [IsWord])

theorem isWord_ofList {cs : List Char} (hne : cs ≠ []) (hcs : ∀ c ∈ cs, isWordChar c = true) :
    IsWord (String.ofList cs) := by
  rw [IsWord, String.toList_ofList]
  exact ⟨hne, hcs⟩

theorem IsWord.ne_of_mark {t : Token} (ht : IsWord t) {c : Char} (hc : marks.contains c = true) :
    t ≠ c.toString := by
  rintro rfl
  have := ht.2 c (by simp)
  rw [isWordChar_of_mark hc] at this
  cases this

/-- A word in front of a text that does not go on with it is a lexeme. -/
theorem lexemes_word_append {cs rest : List Char} (hne : cs ≠ [])
    (hcs : ∀ c ∈ cs, isWordChar c = true) (hr : Breaks rest) :
    lexemes (cs ++ rest) = .word cs :: lexemes rest := by
  obtain ⟨c, cs, rfl⟩ := List.exists_cons_of_ne_nil hne
  have htail : ∀ d ∈ cs, isWordChar d = true := fun d hd => hcs d (by simp [hd])
  rw [List.cons_append, lexemes_word (hcs c (by simp)), Text.takeWhile_append_of_head? htail hr,
    Text.dropWhile_append_of_head? htail hr]

theorem tokensOf_word {t : Token} (ht : IsWord t) {rest : List Char} (hr : Breaks rest) :
    tokensOf (t.toList ++ rest) = t :: tokensOf rest := by
  rw [tokensOf, lexemes_word_append ht.1 ht.2 hr]
  show String.ofList t.toList :: _ = _
  rw [String.ofList_toList]
  rfl

/-- A quote, with the text up to the next equal quote or to the end. -/
theorem tokensOf_quote {q : Char} (hq : quotes.contains q = true) (rest : List Char) :
    tokensOf (q :: rest) =
      if rest.contains q then
        q.toString :: String.ofList (rest.takeWhile (· != q)) :: q.toString ::
          tokensOf (rest.dropWhile (· != q)).tail
      else [q.toString, String.ofList rest] := by
  rw [tokensOf, lexemes_quote hq]
  split <;> rfl

/-- A quoted text is a lexeme whatever stands behind it. -/
theorem lexemes_quoted_append {q : Char} (hq : quotes.contains q = true) {content : List Char}
    (h : q ∉ content) (rest : List Char) :
    lexemes (q :: content ++ q :: rest) = .quoted q content :: lexemes rest := by
  have hne : ∀ c ∈ content, (c != q) = true := by
    intro c hc
    rw [bne_iff_ne]
    rintro rfl
    exact h hc
  rw [List.cons_append, lexemes_quote hq, if_pos (by simp), List.takeWhile_append_of_pos hne,
    List.dropWhile_append_of_pos hne]
  simp

theorem tokensOf_quoted {q : Char} (hq : quotes.contains q = true) {content : List Char}
    (h : q ∉ content) (rest : List Char) :
    tokensOf (q :: content ++ q :: rest) =
      q.toString :: String.ofList content :: q.toString :: tokensOf rest := by
  rw [tokensOf, lexemes_quoted_append hq h]
  rfl

/-! ### Names -/

/-- Is the token a mark? -/
def IsMark (t : Token) : Prop :=
  ∃ c, marks.contains c = true ∧ t = c.toString

/-- Can the token stand for a name?  So can all tokens but quotes and quoted texts. -/
def IsName (t : Token) : Prop :=
  IsWord t ∨ IsMark t

theorem tokensOf_name {t : Token} (ht : IsName t) {rest : List Char} (hr : Breaks rest) :
    tokensOf (t.toList ++ rest) = t :: tokensOf rest := by
  rcases ht with ht | ⟨c, hc, rfl⟩
  · exact tokensOf_word ht hr
  · rw [show c.toString.toList = [c] by simp]
    exact tokensOf_mark hc rest

theorem tokensOf_name_mark {t : Token} (ht : IsName t) {c : Char} (hc : marks.contains c = true)
    (rest : List Char) :
    tokensOf (t.toList ++ c :: rest) = t :: c.toString :: tokensOf rest := by
  rw [tokensOf_name ht (breaks_cons (isWordChar_of_mark hc) rest), tokensOf_mark hc]

theorem isQuote_iff {t : Token} :
    isQuote t = true ↔ ∃ q, quotes.contains q = true ∧ t = q.toString := by
  constructor
  · intro h
    rw [isQuote, Bool.or_eq_true, beq_iff_eq, beq_iff_eq] at h
    rcases h with rfl | rfl
    · exact ⟨'"', by decide, rfl⟩
    · exact ⟨'\'', by decide, rfl⟩
  · rintro ⟨q, hq, rfl⟩
    simp only [quotes, List.contains_eq_mem, List.mem_cons, List.not_mem_nil, or_false,
      decide_eq_true_eq] at hq
    rcases hq with rfl | rfl <;> decide

/-- A name has no quote in it. -/
theorem IsName.quote_not_mem {t : Token} (ht : IsName t) {q : Char}
    (hq : quotes.contains q = true) : q ∉ t.toList := by
  intro hmem
  rcases ht with ⟨-, hall⟩ | ⟨c, hc, rfl⟩
  · have := hall q hmem
    rw [isWordChar_of_quote hq] at this
    cases this
  · obtain rfl : q = c := by simpa using hmem
    rw [not_mark_of_quote hq] at hc
    cases hc

theorem IsName.isQuote_eq_false {t : Token} (ht : IsName t) : isQuote t = false := by
  cases h : isQuote t with
  | false => rfl
  | true =>
    obtain ⟨q, hq, rfl⟩ := isQuote_iff.mp h
    exact (ht.quote_not_mem hq (by simp)).elim

/-! ### The lexemes of whole texts -/

/-- The lexemes are those of a text: each is spelled as its kind asks for, no word touches another
word, and a quote that is never closed is in the last of them. -/
inductive Lexed : List Lexeme → Prop where
  | nil : Lexed []
  | blank {c : Char} {ls : List Lexeme} (hc : Text.isBlank c = true) (rest : Lexed ls) :
      Lexed (.blank c :: ls)
  | mark {c : Char} {ls : List Lexeme} (hc : marks.contains c = true) (rest : Lexed ls) :
      Lexed (.mark c :: ls)
  | word {cs : List Char} {ls : List Lexeme} (hne : cs ≠ [])
      (hcs : ∀ c ∈ cs, isWordChar c = true) (hn : ∀ ds, ls.head? ≠ some (.word ds))
      (rest : Lexed ls) : Lexed (.word cs :: ls)
  | quoted {q : Char} {content : List Char} {ls : List Lexeme} (hq : quotes.contains q = true)
      (h : q ∉ content) (rest : Lexed ls) : Lexed (.quoted q content :: ls)
  | unclosed {q : Char} {content : List Char} (hq : quotes.contains q = true)
      (h : q ∉ content) : Lexed [.unclosed q content]

theorem Lexed.tail {l : Lexeme} {ls : List Lexeme} (h : Lexed (l :: ls)) : Lexed ls := by
  cases h with
  | blank _ rest => exact rest
  | mark _ rest => exact rest
  | word _ _ _ rest => exact rest
  | quoted _ _ rest => exact rest
  | unclosed _ _ => exact .nil

/-- Only in front of a character of words is a word read. -/
theorem head?_lexemes_ne_word {cs : List Char} (h : Breaks cs) (ds : List Char) :
    (lexemes cs).head? ≠ some (.word ds) := by
  fun_cases lexemes cs with
  | case6 c rest hb hq hm =>
    have hc := h c rfl
    simp_all [isWordChar]
  | _ => simp

theorem breaks_dropWhile (cs : List Char) : Breaks (cs.dropWhile isWordChar) := by
  intro c hc
  have := List.head?_dropWhile_not isWordChar cs
  rw [hc] at this
  simpa using this

theorem lexed_lexemes (cs : List Char) : Lexed (lexemes cs) := by
  fun_induction lexemes cs with
  | case1 => exact .nil
  | case2 c rest hb ih => exact .blank hb ih
  | case3 c rest hb hq hc ih =>
    refine .quoted hq (fun hmem => ?_) ih
    have := List.all_eq_true.mp List.all_takeWhile c hmem
    simp at this
  | case4 c rest hb hq hc => exact .unclosed hq (by simpa using hc)
  | case5 c rest hb hq hm ih => exact .mark hm ih
  | case6 c rest hb hq hm ih =>
    refine .word (by simp) ?_ (head?_lexemes_ne_word (breaks_dropWhile rest)) ih
    have hw : isWordChar c = true := by simp_all [isWordChar]
    intro d hd
    rcases List.mem_cons.mp hd with rfl | hd
    · exact hw
    · exact List.all_eq_true.mp List.all_takeWhile d hd

/-- Behind a word that touches no other word its characters do not go on. -/
theorem Lexed.breaks {ls : List Lexeme} (h : Lexed ls) (hn : ∀ ds, ls.head? ≠ some (.word ds)) :
    Breaks (ls.flatMap Lexeme.text) := by
  cases h with
  | nil => exact breaks_nil
  | blank hc _ => exact breaks_cons (isWordChar_of_isBlank hc) _
  | mark hc _ => exact breaks_cons (isWordChar_of_mark hc) _
  | word _ _ _ _ => exact (hn _ rfl).elim
  | quoted hq _ _ => exact breaks_cons (isWordChar_of_quote hq) _
  | unclosed hq _ => exact breaks_cons (isWordChar_of_quote hq) _

/-- The text that the lexemes spell falls apart into them again. -/
theorem Lexed.lexemes_text {ls : List Lexeme} (h : Lexed ls) :
    lexemes (ls.flatMap Lexeme.text) = ls := by
  induction h with
  | nil => exact lexemes_nil
  | blank hc _ ih =>
    rw [List.flatMap_cons, Lexeme.text, List.singleton_append, lexemes_blank hc, ih]
  | mark hc _ ih =>
    rw [List.flatMap_cons, Lexeme.text, List.singleton_append, lexemes_mark hc, ih]
  | word hne hcs hn hls ih =>
    rw [List.flatMap_cons, Lexeme.text, lexemes_word_append hne hcs (hls.breaks hn), ih]
  | quoted hq hmem _ ih =>
    rw [List.flatMap_cons, Lexeme.text, List.append_assoc, List.singleton_append,
      lexemes_quoted_append hq hmem, ih]
  | @unclosed q content hq hmem =>
    rw [List.flatMap_singleton, Lexeme.text, lexemes_quote hq, if_neg (by simpa using hmem)]

/-! ### The tokens of whole texts -/

/-- The list of tokens comes from a text. -/
inductive Scanned : List Token → Prop where
  | nil : Scanned []
  | name {t : Token} {ts : List Token} (ht : IsName t) (rest : Scanned ts) : Scanned (t :: ts)
  | quoted {q : Char} {content : List Char} {ts : List Token} (hq : quotes.contains q = true)
      (h : q ∉ content) (rest : Scanned ts) :
      Scanned (q.toString :: String.ofList content :: q.toString :: ts)
  | unclosed {q : Char} {content : List Char} (hq : quotes.contains q = true)
      (h : q ∉ content) : Scanned [q.toString, String.ofList content]

theorem Lexed.scanned {ls : List Lexeme} (h : Lexed ls) : Scanned (ls.flatMap Lexeme.tokens) := by
  induction h with
  | nil => exact .nil
  | blank _ _ ih => exact ih
  | mark hc _ ih => exact .name (.inr ⟨_, hc, rfl⟩) ih
  | word hne hcs _ _ ih => exact .name (.inl (isWord_ofList hne hcs)) ih
  | quoted hq hmem _ ih => exact .quoted hq hmem ih
  | unclosed hq hmem => exact .unclosed hq hmem

theorem scanned_tokensOf (cs : List Char) : Scanned (tokensOf cs) :=
  (lexed_lexemes cs).scanned

end QueryTrace.Token

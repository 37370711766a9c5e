/-
Tokens of the query language, and what is read off a list of them.

A text falls apart into lexemes: single blanks, single marks, words, and quoted texts with their
quotes.  `Token.scan` reads the lexemes off a text and keeps the tokens of each: a blank has none,
a quoted text has three (quote, content, quote).

* `lexemes_text` — the lexemes of a text, written one after another, are the text;
* `lexemes_nil`, `lexemes_blank`, `lexemes_mark`, `lexemes_word`, `lexemes_quote` — one equation
  for each way a text may begin;
* `Taken α ts` — a value that was read off the front of the list `ts`, with the rest of the list.

Design notes: a token is a bare string, so nothing tells the content of a quoted text from a word
of the same letters.  The lexemes keep that difference for those who need it.  At least one item is
taken when a value is read, so the rest is shorter; this is why readers that call each other come
to an end, those of tokens as well as those of characters.
-/
import QueryTrace.Text.Blank

namespace QueryTrace

/-- A token is the piece of text it was read from. -/
abbrev Token := String

/-- A lexeme is a token or blank together with its place in the text. -/
inductive Lexeme where
  /-- A blank between tokens. -/
  | blank (c : Char)
  /-- A character that always stands alone, other than a quote. -/
  | mark (c : Char)
  /-- A run of characters without blanks, marks and quotes. -/
  | word (cs : List Char)
  /-- A text between two equal quotes. -/
  | quoted (quote : Char) (content : List Char)
  /-- A quote that is never closed, with all the text behind it. -/
  | unclosed (quote : Char) (content : List Char)
  deriving DecidableEq, Repr

namespace Token

/-- The two quotes. -/
def quotes : List Char := ['"', '\'']

/-- The characters that stand alone as tokens, other than the quotes. -/
def marks : List Char := ['=', '(', ')', '.', ',', '-', '+', '*', '/', ';', '<', '>', '!']

/-- Does the character go into a word? -/
def isWordChar (c : Char) : Bool :=
  !Text.isBlank c && !quotes.contains c && !marks.contains c

/-- Is the token a quote? -/
def isQuote (t : Token) : Bool :=
  t == "\"" || t == "'"

/-- Is the token the keyword, in whatever case of letters? -/
def isKeyword (keyword : String) (t : Token) : Bool :=
  t.toUpper == keyword

end Token

namespace Lexeme

/-- The stretch of text that the lexeme covers. -/
def text : Lexeme → List Char
  | blank c => [c]
  | mark c => [c]
  | word cs => cs
  | quoted q content => q :: content ++ [q]
  | unclosed q content => q :: content

/-- The tokens that the lexeme stands for. -/
def tokens : Lexeme → List Token
  | blank _ => []
  | mark c => [c.toString]
  | word cs => [String.ofList cs]
  | quoted q content => [q.toString, String.ofList content, q.toString]
  | unclosed q content => [q.toString, String.ofList content]

end Lexeme

namespace Token

/-! ### Reading lexemes -/

/-- The lexemes of a text, in order. -/
def lexemes : List Char → List Lexeme
  | [] => []
  | c :: rest =>
    if Text.isBlank c then .blank c :: lexemes rest
    else if quotes.contains c then
      -- the closing quote goes with the lexeme, so reading goes on behind it
      if rest.contains c then
        .quoted c (rest.takeWhile (· != c)) :: lexemes (rest.dropWhile (· != c)).tail
      else [.unclosed c rest]
    else if marks.contains c then .mark c :: lexemes rest
    else .word (c :: rest.takeWhile isWordChar) :: lexemes (rest.dropWhile isWordChar)
termination_by cs => cs.length
decreasing_by
  · simp
  · have := (List.dropWhile_suffix (· != c) (l := rest)).length_le
    simp only [List.length_tail, List.length_cons]
    omega
  · simp
  · have := (List.dropWhile_suffix isWordChar (l := rest)).length_le
    simp only [List.length_cons]
    omega

/-- The tokens of a text, in order. -/
def scan (text : String) : List Token :=
  (lexemes text.toList).flatMap Lexeme.tokens

@[simp] theorem lexemes_nil : lexemes [] = [] := by
  rw [lexemes]

theorem lexemes_blank {c : Char} (h : Text.isBlank c = true) (rest : List Char) :
    lexemes (c :: rest) = .blank c :: lexemes rest := by
  rw [lexemes, if_pos h]

/-- A quote reaches to the next equal quote, or to the end of the text if there is none. -/
theorem lexemes_quote {c : Char} (h : quotes.contains c = true) (rest : List Char) :
    lexemes (c :: rest) =
      if rest.contains c then
        .quoted c (rest.takeWhile (· != c)) :: lexemes (rest.dropWhile (· != c)).tail
      else [.unclosed c rest] := by
  have hb : Text.isBlank c = false := by
    simp only [quotes, List.contains_eq_mem, List.mem_cons, List.not_mem_nil, or_false,
      decide_eq_true_eq] at h
    rcases h with rfl | rfl <;> decide
  rw [lexemes, if_neg (by simp [hb]), if_pos h]

theorem lexemes_mark {c : Char} (h : marks.contains c = true) (rest : List Char) :
    lexemes (c :: rest) = .mark c :: lexemes rest := by
  have hm : marks.all (fun c => !Text.isBlank c && !quotes.contains c) = true := by decide
  have hc := List.all_eq_true.mp hm c (List.contains_iff_mem.mp h)
  obtain ⟨hb, hq⟩ : Text.isBlank c = false ∧ quotes.contains c = false := by simpa using hc
  rw [lexemes, if_neg (by rw [hb]; decide), if_neg (by rw [hq]; decide), if_pos h]

theorem lexemes_word {c : Char} (h : isWordChar c = true) (rest : List Char) :
    lexemes (c :: rest) =
      .word (c :: rest.takeWhile isWordChar) :: lexemes (rest.dropWhile isWordChar) := by
  simp only [isWordChar, Bool.and_eq_true, Bool.not_eq_eq_eq_not, Bool.not_true] at h
  obtain ⟨⟨hb, hq⟩, hm⟩ := h
  rw [lexemes, if_neg (by simp [hb]), if_neg (by rw [hq]; decide), if_neg (by rw [hm]; decide)]

/-- What is left from the first `c` on begins with `c`. -/
theorem dropWhile_ne_of_contains {c : Char} {cs : List Char} (h : cs.contains c = true) :
    cs.dropWhile (· != c) = c :: (cs.dropWhile (· != c)).tail := by
  induction cs with
  | nil => simp at h
  | cons d cs ih =>
    by_cases hd : d = c
    · simp [hd]
    · have hc : cs.contains c = true := by simpa [Ne.symm hd] using h
      rw [List.dropWhile_cons, if_pos (by simpa using hd)]
      exact ih hc

/-- Nothing is lost: the lexemes of a text spell the text. -/
theorem lexemes_text (cs : List Char) : (lexemes cs).flatMap Lexeme.text = cs := by
  fun_induction lexemes cs with
  | case1 => rfl
  | case2 c rest _ ih => simp [Lexeme.text, ih]
  | case3 c rest _ _ h ih =>
    have hs := List.takeWhile_append_dropWhile (p := (· != c)) (l := rest)
    rw [dropWhile_ne_of_contains h] at hs
    simp only [List.flatMap_cons, Lexeme.text, ih]
    simpa using hs
  | case4 c rest => simp [Lexeme.text]
  | case5 c rest _ _ _ ih => simp [Lexeme.text, ih]
  | case6 c rest _ _ _ ih => simp [Lexeme.text, ih]

end Token

/-! ### Reading from the front of a list -/

/-- A value read off the front of `ts`, and what is left. -/
structure Taken (α : Type) {τ : Type} (ts : List τ) where
  value : α
  rest : List τ
  shorter : rest.length < ts.length

namespace Taken

variable {α β τ : Type} {ts us : List τ}

/-- The same items taken, with another value. -/
def map (f : α → β) (x : Taken α ts) : Taken β ts :=
  ⟨f x.value, x.rest, x.shorter⟩

/-- What was taken from a shorter list counts as taken from the longer one. -/
def weaken (x : Taken α us) (h : us.length ≤ ts.length) : Taken α ts :=
  ⟨x.value, x.rest, Nat.lt_of_lt_of_le x.shorter h⟩

/-- Without its first item the rest is shorter still. -/
theorem tail_shorter (x : Taken α ts) : x.rest.tail.length < ts.length := by
  have := x.shorter
  simp only [List.length_tail]
  omega

end Taken

end QueryTrace

/-
Scripts and their statements.

A script is cut after every semicolon that stands outside of quotes.  A piece that is blank up to
its semicolon is dropped; the others are trimmed and keep their semicolon.  What follows the last
semicolon is a statement too unless it is blank.

* `cut_text` — the pieces with their semicolons, and the rest behind them, are the script;
* `cut_append` — how a script is cut behind a text depends only on the quote that is open there;
* `mem_quotes` and `foldl_quoteAfter_blank` — only quotes are ever open, and blanks leave them so;
* `statements_eq` — the statements in terms of the pieces.

Design notes: three characters quote here, the backquote among them, and a quote left open
reaches to the end of the script.
-/
import QueryTrace.Text.Blank

namespace QueryTrace.Script

/-- The characters that open a quoted stretch of a script. -/
def quotes : List Char := ['\'', '"', '\x60']

/-- The open quote after one more character, if any. -/
def quoteAfter : Option Char → Char → Option Char
  | some q, c => if c == q then none else some q
  | none, c => if quotes.contains c then some c else none

/-- The pieces before the semicolons outside of quotes, without those semicolons, and the text
behind the last of them. -/
def cut : Option Char → List Char → List (List Char) × List Char
  | _, [] => ([], [])
  | quote, c :: rest =>
    if quote.isNone && c == ';' then
      let (pieces, tail) := cut none rest
      ([] :: pieces, tail)
    else
      match cut (quoteAfter quote c) rest with
      | ([], tail) => ([], c :: tail)
      | (piece :: pieces, tail) => ((c :: piece) :: pieces, tail)

/-- A piece with its semicolon, trimmed, unless there is nothing to it. -/
def statementOfPiece (piece : List Char) : Option (List Char) :=
  if Text.isBlankText piece then none else some (Text.trim (piece ++ [';']))

/-- The text behind the last semicolon, trimmed, unless it is blank. -/
def statementOfTail (tail : List Char) : Option (List Char) :=
  if Text.isBlankText tail then none else some (Text.trim tail)

/-- The statements of a script, in order. -/
def statements (script : String) : List String :=
  let (pieces, tail) := cut none script.toList
  (pieces.filterMap statementOfPiece ++ (statementOfTail tail).toList).map String.ofList

theorem statements_eq (script : String) :
    statements script =
      ((cut none script.toList).1.filterMap statementOfPiece ++
        (statementOfTail (cut none script.toList).2).toList).map String.ofList := rfl

/-! ### Open quotes -/

/-- Only quotes are ever open. -/
theorem mem_quotes_of_quoteAfter {quote : Option Char} {c : Char}
    (hquote : ∀ q, quote = some q → q ∈ quotes) :
    ∀ q, quoteAfter quote c = some q → q ∈ quotes := by
  intro q hq
  cases quote with
  | none =>
    rw [quoteAfter] at hq
    split at hq
    · next hc =>
      obtain rfl := Option.some.inj hq
      exact List.contains_iff_mem.mp hc
    · cases hq
  | some q' =>
    rw [quoteAfter] at hq
    split at hq
    · cases hq
    · exact hquote q hq

theorem mem_quotes_of_foldl {quote : Option Char} (hquote : ∀ q, quote = some q → q ∈ quotes)
    (cs : List Char) : ∀ q, cs.foldl quoteAfter quote = some q → q ∈ quotes := by
  induction cs generalizing quote with
  | nil => exact hquote
  | cons c cs ih => exact ih (mem_quotes_of_quoteAfter hquote)

/-- From the beginning of a script on only quotes are ever open. -/
theorem mem_quotes {cs : List Char} {q : Char} (h : cs.foldl quoteAfter none = some q) :
    q ∈ quotes :=
  mem_quotes_of_foldl (fun _ hq => absurd hq (Option.some_ne_none _).symm) cs q h

theorem ne_semicolon_of_mem_quotes {q : Char} (h : q ∈ quotes) : q ≠ ';' := by
  rintro rfl
  exact absurd h (by decide)

/-- A quote stays open until it occurs again. -/
theorem foldl_quoteAfter_some {q : Char} {cs : List Char} (h : q ∉ cs) :
    cs.foldl quoteAfter (some q) = some q := by
  induction cs with
  | nil => rfl
  | cons c cs ih =>
    rw [List.mem_cons, not_or] at h
    have hc : quoteAfter (some q) c = some q := by
      rw [quoteAfter, if_neg (by simpa using Ne.symm h.1)]
    rw [List.foldl_cons, hc, ih h.2]

theorem foldl_quoteAfter_none {cs : List Char} (h : ∀ c ∈ cs, quotes.contains c = false) :
    cs.foldl quoteAfter none = none := by
  induction cs with
  | nil => rfl
  | cons c cs ih =>
    have hc : quoteAfter none c = none := by
      rw [quoteAfter, h c List.mem_cons_self, if_neg (by decide)]
    rw [List.foldl_cons, hc, ih fun d hd => h d (List.mem_cons_of_mem c hd)]

/-- A semicolon neither opens nor closes a quote. -/
theorem quoteAfter_semicolon {quote : Option Char} (hquote : ∀ q, quote = some q → q ∈ quotes) :
    quoteAfter quote ';' = quote := by
  cases quote with
  | none => rfl
  | some q =>
    rw [quoteAfter, if_neg]
    intro heq
    exact ne_semicolon_of_mem_quotes (hquote q rfl) (beq_iff_eq.mp heq).symm

section Blank

variable {cs : List Char} (h : Text.isBlankText cs = true)

include h

theorem quote_not_mem_blank {q : Char} (hq : q ∈ quotes) : q ∉ cs := by
  have hquotes : quotes.all (fun q => !Text.isBlank q) = true := by decide
  intro hmem
  have hblank := List.all_eq_true.mp h q hmem
  have hno := List.all_eq_true.mp hquotes q hq
  rw [hblank] at hno
  cases hno

theorem semicolon_not_mem_blank : ';' ∉ cs := by
  intro hmem
  exact absurd (List.all_eq_true.mp h _ hmem) (by decide)

/-- Blanks do not open a quote. -/
theorem foldl_quoteAfter_none_of_blank : cs.foldl quoteAfter none = none := by
  refine foldl_quoteAfter_none fun c hc => Bool.eq_false_iff.mpr fun hq => ?_
  exact quote_not_mem_blank h (List.contains_iff_mem.mp hq) hc

/-- Blanks neither open nor close a quote. -/
theorem foldl_quoteAfter_blank {quote : Option Char} (hquote : ∀ q, quote = some q → q ∈ quotes) :
    cs.foldl quoteAfter quote = quote := by
  cases quote with
  | none => exact foldl_quoteAfter_none_of_blank h
  | some q => exact foldl_quoteAfter_some (quote_not_mem_blank h (hquote q rfl))

end Blank

/-! ### Cuts -/

/-- Cutting loses nothing. -/
theorem cut_text (quote : Option Char) (cs : List Char) :
    (cut quote cs).1.flatMap (· ++ [';']) ++ (cut quote cs).2 = cs := by
  induction cs generalizing quote with
  | nil => rfl
  | cons c cs ih =>
    rw [cut]
    split
    · next h =>
      simp only [Bool.and_eq_true, beq_iff_eq] at h
      simp [ih none, h.2]
    · have := ih (quoteAfter quote c)
      split
      · next tail h => simpa [h] using this
      · next piece pieces tail h => simpa [h] using this

/-- Behind some text a script is cut as it would be alone, with the quote that is open there. -/
theorem cut_append (quote : Option Char) (cs ds : List Char) :
    cut quote (cs ++ ds) = match cut (cs.foldl quoteAfter quote) ds with
      | ([], tail) => ((cut quote cs).1, (cut quote cs).2 ++ tail)
      | (piece :: pieces, tail) =>
        ((cut quote cs).1 ++ ((cut quote cs).2 ++ piece) :: pieces, tail) := by
  induction cs generalizing quote with
  | nil =>
    show cut quote ds = match cut quote ds with
      | ([], tail) => ([], tail)
      | (piece :: pieces, tail) => (piece :: pieces, tail)
    rcases cut quote ds with ⟨_ | ⟨piece, pieces⟩, tail⟩ <;> rfl
  | cons c cs ih =>
    rw [List.cons_append, cut, cut, List.foldl_cons, ih, ih]
    by_cases h : quote.isNone && c == ';'
    · have hquote : quoteAfter quote c = none := by
        rw [Bool.and_eq_true, Option.isNone_iff_eq_none, beq_iff_eq] at h
        rw [h.1, h.2]
        rfl
      rw [if_pos h, if_pos h, hquote]
      rcases cut (cs.foldl quoteAfter none) ds with ⟨_ | ⟨piece, pieces⟩, tail⟩ <;> rfl
    · rw [if_neg h, if_neg h]
      rcases cut (cs.foldl quoteAfter (quoteAfter quote c)) ds with ⟨_ | ⟨piece, pieces⟩, tail⟩ <;>
        rcases cut (quoteAfter quote c) cs with ⟨_ | ⟨first, more⟩, rest⟩ <;> rfl

/-- Text without semicolons is not cut. -/
theorem cut_of_not_mem {cs : List Char} (h : ';' ∉ cs) (quote : Option Char) :
    cut quote cs = ([], cs) := by
  induction cs generalizing quote with
  | nil => rfl
  | cons c cs ih =>
    rw [List.mem_cons, not_or] at h
    rw [cut, if_neg (by simp [Ne.symm h.1]), ih h.2]

end QueryTrace.Script

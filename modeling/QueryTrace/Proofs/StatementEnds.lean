/-
Where statements end.

A script is cut into statements character by character, with the quote that is open as the state.
Tokens are read quote by quote: from an opening quote the closing one is looked for.  This file
compares the two.

* `tokensOf_trim` — a text with all its quotes closed has the same tokens trimmed;
* `withoutBlankEnds` — the lexemes of a script but for the semicolons that end blank statements;
* **`scan_statements`** — the statements of a script, scanned one by one, give the tokens of these
  lexemes, and each statement has no semicolon outside of quotes but at its end.

Design notes: a backquote quotes for scripts only, and a statement whose quote is never closed would
be scanned apart from the blanks behind it, which are content of that quote in the script.
-/
import QueryTrace.Proofs.Pieces

namespace QueryTrace

open Token Script

/-! ### Blank lexemes -/

/-- Is the lexeme a blank? -/
def Lexeme.isBlank : Lexeme → Bool
  | blank _ => true
  | _ => false

section Lexemes

variable {l : Lexeme} {ls ms : List Lexeme}

theorem isBlankText_lexeme (h : Lexed (l :: ls)) : Text.isBlankText l.text = l.isBlank := by
  have hfirst : ∀ {c : Char} (cs : List Char), Text.isBlank c = false →
      Text.isBlankText (c :: cs) = false := by
    intro c cs hc
    rw [Text.isBlankText, List.all_cons, hc]
    rfl
  cases h with
  | @blank c _ hc _ =>
    show (Text.isBlank c && true) = true
    rw [hc]
    rfl
  | @mark c _ hc _ => exact hfirst [] (isBlank_of_mark hc)
  | @word cs _ hne hcs _ _ =>
    obtain ⟨c, cs, rfl⟩ := List.exists_cons_of_ne_nil hne
    exact hfirst cs (isBlank_of_isWordChar (hcs c List.mem_cons_self))
  | @quoted q content _ hq _ _ => exact hfirst (content ++ [q]) (isBlank_of_quote hq)
  | @unclosed q content hq _ => exact hfirst content (isBlank_of_quote hq)

theorem isBlankText_lexemes (h : Lexed ls) :
    Text.isBlankText (ls.flatMap Lexeme.text) = ls.all Lexeme.isBlank := by
  induction ls with
  | nil => rfl
  | cons l ls ih =>
    rw [List.flatMap_cons, Text.isBlankText_append, isBlankText_lexeme h, ih h.tail, List.all_cons]

theorem tokens_of_blank (h : ls.all Lexeme.isBlank = true) : ls.flatMap Lexeme.tokens = [] := by
  rw [List.flatMap_eq_nil_iff]
  intro l hl
  have hblank := List.all_eq_true.mp h l hl
  cases l with
  | blank c => rfl
  | _ => cases hblank

/-! ### Semicolons that end blank statements -/

/-- The lexemes without the semicolons that end blank statements.  The flag says that there have
been only blanks since the last semicolon. -/
def withoutBlankEnds : Bool → List Lexeme → List Lexeme
  | _, [] => []
  | fresh, l :: ls =>
    if l = .mark ';' then
      if fresh then withoutBlankEnds true ls else l :: withoutBlankEnds true ls
    else l :: withoutBlankEnds (fresh && l.isBlank) ls

theorem withoutBlankEnds_append (fresh : Bool) (h : .mark ';' ∉ ls) (ms : List Lexeme) :
    withoutBlankEnds fresh (ls ++ ms) =
      ls ++ withoutBlankEnds (fresh && ls.all Lexeme.isBlank) ms := by
  induction ls generalizing fresh with
  | nil => rw [List.nil_append, List.nil_append, List.all_nil, Bool.and_true]
  | cons l ls ih =>
    rw [List.mem_cons, not_or] at h
    rw [List.cons_append, withoutBlankEnds, if_neg (Ne.symm h.1), ih _ h.2, List.all_cons,
      Bool.and_assoc, List.cons_append]

theorem withoutBlankEnds_of_not_mem (fresh : Bool) (h : .mark ';' ∉ ls) :
    withoutBlankEnds fresh ls = ls := by
  have happend := withoutBlankEnds_append fresh h []
  rwa [withoutBlankEnds, List.append_nil] at happend

/-- The lexemes up to a semicolon are kept with it or, if they are blank, without it. -/
theorem withoutBlankEnds_ended (h : .mark ';' ∉ ls) (ms : List Lexeme) :
    withoutBlankEnds true (ls ++ .mark ';' :: ms) =
      ls ++ (if ls.all Lexeme.isBlank then [] else [.mark ';']) ++ withoutBlankEnds true ms := by
  rw [withoutBlankEnds_append true h, withoutBlankEnds, if_pos rfl, Bool.true_and,
    List.append_assoc]
  split <;> rfl

end Lexemes

/-! ### Tokens of trimmed texts -/

section Texts

variable {cs : List Char}

theorem all_isBlank_lexemes (cs : List Char) :
    (lexemes cs).all Lexeme.isBlank = Text.isBlankText cs := by
  have h := isBlankText_lexemes (lexed_lexemes cs)
  rw [lexemes_text] at h
  exact h.symm

theorem tokensOf_blankText (h : Text.isBlankText cs = true) : tokensOf cs = [] :=
  tokens_of_blank ((all_isBlank_lexemes cs).trans h)

theorem tokensOf_trimStart (cs : List Char) : tokensOf (Text.trimStart cs) = tokensOf cs := by
  induction cs with
  | nil => rfl
  | cons c cs ih =>
    rw [Text.trimStart, List.dropWhile_cons]
    split
    · next hc =>
      rw [tokensOf_blank hc]
      exact ih
    · rfl

theorem tokensOf_trimEnd (hn : NoBackquote cs) (hq : cs.foldl quoteAfter none = none) :
    tokensOf (Text.trimEnd cs) = tokensOf cs := by
  obtain ⟨blanks, hblanks, hcs⟩ := Text.exists_trimEnd_blank cs
  rw [← hcs] at hn hq
  obtain ⟨hno, -⟩ := noBackquote_append.mp hn
  -- blanks close no quote, so what is in front of them has closed its own
  have hend : (Text.trimEnd cs).foldl quoteAfter none = none := by
    rwa [List.foldl_append, foldl_quoteAfter_blank hblanks fun _ hq => mem_quotes hq] at hq
  have hbreaks : Breaks blanks := by
    intro c hc
    exact isWordChar_of_isBlank (List.all_eq_true.mp hblanks c (List.mem_of_mem_head? hc))
  have hlexemes := lexemes_append ((closed_lexemes_iff hno).mpr hend) hbreaks
  rw [hcs] at hlexemes
  have hnothing := tokensOf_blankText hblanks
  rw [tokensOf] at hnothing
  rw [tokensOf, tokensOf, hlexemes, List.flatMap_append, hnothing, List.append_nil]

theorem tokensOf_trim (hn : NoBackquote cs) (hq : cs.foldl quoteAfter none = none) :
    tokensOf (Text.trim cs) = tokensOf cs := by
  have hstart := (foldl_quoteAfter_trimStart cs).trans hq
  rw [Text.trim, tokensOf_trimEnd (noBackquote_trimStart hn) hstart, tokensOf_trimStart]

end Texts

/-! ### Tokens of the statements -/

/-- What is in front of a semicolon outside of quotes has the same tokens trimmed as untrimmed. -/
theorem tokensOf_semicolon {piece : List Char} (hn : NoBackquote piece)
    (hq : piece.foldl quoteAfter none = none) :
    tokensOf (Text.trimStart piece ++ [';']) = tokensOf piece ++ [";"] := by
  have hclosed := (closed_lexemes_iff (noBackquote_trimStart hn)).mpr
    ((foldl_quoteAfter_trimStart piece).trans hq)
  rw [← tokensOf_trimStart piece, tokensOf, lexemes_semicolon hclosed, List.flatMap_append]
  rfl

/-- The statements found in pieces have the tokens of the script that is cut into them. -/
theorem tokens_of_pieces {pieces : List (List Char)} {tail : List Char}
    (h : Pieces none pieces tail) (hn : NoBackquote (pieces.flatMap (· ++ [';']) ++ tail))
    (hc : ∀ l ∈ lexemes (pieces.flatMap (· ++ [';']) ++ tail), l.isUnclosed = false) :
    (pieces.filterMap statementOfPiece ++ (statementOfTail tail).toList).flatMap tokensOf =
      (withoutBlankEnds true (lexemes (pieces.flatMap (· ++ [';']) ++ tail))).flatMap
        Lexeme.tokens := by
  induction pieces with
  | nil =>
    rw [List.flatMap_nil, List.nil_append] at hn hc ⊢
    rw [withoutBlankEnds_of_not_mem true (mark_not_mem_lexemes hn (h.uncut_tail rfl)),
      List.filterMap_nil, List.nil_append, statementOfTail]
    split
    · next hblank => exact (tokensOf_blankText hblank).symm
    · have hquote := (closed_lexemes_iff hn).mp hc
      rw [Option.toList_some, List.flatMap_singleton, tokensOf_trim hn hquote, tokensOf]
  | cons p pieces ih =>
    rw [List.flatMap_cons, List.append_assoc, List.append_assoc, List.singleton_append] at hn hc ⊢
    obtain ⟨hnp, hntail⟩ := noBackquote_append.mp hn
    have hnrest : NoBackquote (pieces.flatMap (· ++ [';']) ++ tail) :=
      fun hm => hntail (List.mem_cons_of_mem _ hm)
    obtain ⟨hu, hq⟩ := h.uncut_piece rfl List.mem_cons_self
    have hmore : Pieces none pieces tail := by
      cases h with
      | piece _ _ rest => exact rest
    rw [lexemes_append_semicolon ((closed_lexemes_iff hnp).mpr hq)] at hc ⊢
    have hrest := ih hmore hnrest fun l hl =>
      hc l (List.mem_append_right _ (List.mem_cons_of_mem _ hl))
    rw [withoutBlankEnds_ended (mark_not_mem_lexemes hnp hu), all_isBlank_lexemes]
    cases hp : Text.isBlankText p with
    | true =>
      have hnone : statementOfPiece p = none := if_pos hp
      have htokens : (lexemes p).flatMap Lexeme.tokens = [] := tokensOf_blankText hp
      rw [List.filterMap_cons_none hnone, hrest, List.flatMap_append, List.flatMap_append, htokens]
      rfl
    | false =>
      have hsome : statementOfPiece p = some (Text.trimStart p ++ [';']) := by
        rw [statementOfPiece, hp, trim_semicolon]
        rfl
      rw [List.filterMap_cons_some hsome, List.cons_append, List.flatMap_cons, hrest,
        tokensOf_semicolon hnp hq, List.flatMap_append, List.flatMap_append]
      rfl

/-- **Statements end where the tokens say.**  In a script without backquotes whose quotes are all
closed, the tokens of its statements are those of the script, but for the semicolons that end blank
statements; and a statement has no semicolon outside of quotes, but perhaps as its last lexeme. -/
theorem scan_statements (script : String) (hn : '\x60' ∉ script.toList) (hc : Closed script) :
    (statements script).flatMap scan =
      (withoutBlankEnds true (lexemes script.toList)).flatMap Lexeme.tokens ∧
    ∀ piece ∈ statements script, .mark ';' ∉ (lexemes piece.toList).dropLast := by
  constructor
  · have hpieces := tokens_of_pieces (pieces_of_cut none script.toList)
    rw [cut_text] at hpieces
    have hscan : ∀ cs : List Char, scan (String.ofList cs) = tokensOf cs := by
      intro cs
      rw [scan, String.toList_ofList, tokensOf]
    rw [statements_eq, List.flatMap_map, ← hpieces hn hc]
    exact congrArg (List.flatMap · _) (funext hscan)
  · intro piece hpiece
    rcases semicolon_of_mem_statements hn hpiece with ⟨ls, -, -, hm, hls⟩ | hm
    · rwa [hls, List.dropLast_concat]
    · exact fun hmem => hm (List.dropLast_subset _ hmem)

/-- The semicolons that are missing are the first and the last, which end blank statements. -/
theorem scan_statements_blank_ends :
    '\x60' ∉ "; SELECT 'a; b' ;\n; x".toList ∧ Closed "; SELECT 'a; b' ;\n; x" ∧
    scan "; SELECT 'a; b' ;\n; x" = [";", "SELECT", "'", "a; b", "'", ";", ";", "x"] ∧
    statements "; SELECT 'a; b' ;\n; x" = ["SELECT 'a; b' ;", "x"] ∧
    (statements "; SELECT 'a; b' ;\n; x").flatMap scan =
      ["SELECT", "'", "a; b", "'", ";", "x"] ∧
    ∀ piece ∈ statements "; SELECT 'a; b' ;\n; x",
      .mark ';' ∉ (lexemes piece.toList).dropLast := by
  have hn : '\x60' ∉ "; SELECT 'a; b' ;\n; x".toList := by decide +kernel
  have hc : Closed "; SELECT 'a; b' ;\n; x" := by decide +kernel
  obtain ⟨htokens, hends⟩ := scan_statements "; SELECT 'a; b' ;\n; x" hn hc
  exact ⟨hn, hc, by decide +kernel, by decide +kernel, htokens.trans (by decide +kernel), hends⟩

end QueryTrace

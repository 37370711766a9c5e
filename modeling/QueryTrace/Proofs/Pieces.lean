/-
One statement and nothing behind it.

A text is parsed as the statement that its tokens begin with.  This file says when there is nothing
else in the text.

* `Uncut` — no semicolon stands outside of quotes; **`pieces_of_cut`** says that the pieces of a
  script are cut nowhere else;
* `mark_not_mem_lexemes` and `closed_lexemes_iff` — cutting and scanning agree about quotes as long
  as there is no backquote;
* `lexemes_append` — a text is scanned in two parts if no quote is open and no word goes on;
* **`left_eq_nil_of_last`**, **`left_eq_nil_of_not_mem`** — a semicolon that ends a statement is no
  content of a quoted text, unless a quote is taken for a name;
* **`parse_one_statement`** — the tokens that are taken spell one statement, and if the text has one
  semicolon, or is a piece of a script, they are all its tokens.

Design notes: the examples at the end have a text with two statements, a backquote, which quotes for
scripts and not for statements, and a quote for an alias.
-/
import QueryTrace.Proofs.Opacity
import QueryTrace.Proofs.Sentences
import QueryTrace.Script

namespace QueryTrace

open Token

/-! ### Pieces of a script -/

namespace Script

/-- The text is not cut: no semicolon stands outside of quotes, when the given quote is open in
front. -/
def Uncut : Option Char → List Char → Prop
  | _, [] => True
  | quote, c :: cs => ¬ (quote = none ∧ c = ';') ∧ Uncut (quoteAfter quote c) cs

theorem uncut_append {quote : Option Char} {cs ds : List Char} :
    Uncut quote (cs ++ ds) ↔ Uncut quote cs ∧ Uncut (cs.foldl quoteAfter quote) ds := by
  induction cs generalizing quote with
  | nil => exact (iff_of_eq (true_and _)).symm
  | cons c cs ih =>
    show _ ∧ Uncut (quoteAfter quote c) (cs ++ ds) ↔ (_ ∧ Uncut (quoteAfter quote c) cs) ∧ _
    rw [ih, and_assoc, List.foldl_cons]

/-- The pieces and the text behind them are not cut, and no quote is open behind a piece. -/
inductive Pieces : Option Char → List (List Char) → List Char → Prop where
  | tail {quote : Option Char} {tail : List Char} (ht : Uncut quote tail) : Pieces quote [] tail
  | piece {quote : Option Char} {piece : List Char} {pieces : List (List Char)} {tail : List Char}
      (hp : Uncut quote piece) (hq : piece.foldl quoteAfter quote = none)
      (rest : Pieces none pieces tail) : Pieces quote (piece :: pieces) tail

/-- **A script is cut at all semicolons outside of quotes.** -/
theorem pieces_of_cut (quote : Option Char) (cs : List Char) :
    Pieces quote (cut quote cs).1 (cut quote cs).2 := by
  induction cs generalizing quote with
  | nil => exact .tail trivial
  | cons c cs ih =>
    rw [cut]
    by_cases hc : quote = none ∧ c = ';'
    · obtain ⟨rfl, rfl⟩ := hc
      exact .piece trivial rfl (ih none)
    · have hcond : (quote.isNone && c == ';') = false := by
        rw [Bool.eq_false_iff]
        intro h
        rw [Bool.and_eq_true, Option.isNone_iff_eq_none, beq_iff_eq] at h
        exact hc h
      rw [if_neg (by rw [hcond]; decide)]
      have hrest := ih (quoteAfter quote c)
      rcases hcut : cut (quoteAfter quote c) cs with ⟨_ | ⟨piece, pieces⟩, tail⟩
      · rw [hcut] at hrest
        cases hrest with
        | tail ht => exact .tail ⟨hc, ht⟩
      · rw [hcut] at hrest
        cases hrest with
        | piece hp hq rest => exact .piece ⟨hc, hp⟩ hq rest

theorem Pieces.uncut_piece {quote : Option Char} {pieces : List (List Char)}
    {tail piece : List Char} (h : Pieces quote pieces tail) (hq : quote = none)
    (hp : piece ∈ pieces) :
    Uncut none piece ∧ piece.foldl quoteAfter none = none := by
  induction h with
  | tail _ => cases hp
  | piece hu hn _ ih =>
    subst hq
    rcases List.mem_cons.mp hp with rfl | hp
    · exact ⟨hu, hn⟩
    · exact ih rfl hp

theorem Pieces.uncut_tail {quote : Option Char} {pieces : List (List Char)} {tail : List Char}
    (h : Pieces quote pieces tail) (hq : quote = none) : Uncut none tail := by
  induction h with
  | tail ht => exact hq ▸ ht
  | piece _ _ _ ih => exact ih rfl

end Script

open Script

/-! ### Quotes for scripts and for texts -/

/-- A text in which only the two quotes of texts are quotes for scripts. -/
abbrev NoBackquote (cs : List Char) : Prop :=
  '\x60' ∉ cs

theorem noBackquote_append {cs ds : List Char} :
    NoBackquote (cs ++ ds) ↔ NoBackquote cs ∧ NoBackquote ds := by
  rw [NoBackquote, List.mem_append, not_or]

theorem noBackquote_trimStart {cs : List Char} (h : NoBackquote cs) :
    NoBackquote (Text.trimStart cs) :=
  fun hmem => h ((List.dropWhile_suffix _).subset hmem)

/-- A character that is no quote of texts is no quote of scripts either. -/
theorem quotes_contains_eq_false {c : Char} (hn : c ≠ '\x60')
    (hq : Token.quotes.contains c = false) : Script.quotes.contains c = false := by
  simp only [Token.quotes, Script.quotes, List.contains_eq_mem, List.mem_cons, List.not_mem_nil,
    or_false, decide_eq_false_iff_not, not_or] at hq ⊢
  exact ⟨hq.2, hq.1, hn⟩

theorem quotes_contains_of_quote {c : Char} (hq : Token.quotes.contains c = true) :
    Script.quotes.contains c = true := by
  have hall : Token.quotes.all Script.quotes.contains = true := by decide
  exact List.all_eq_true.mp hall c (List.contains_iff_mem.mp hq)

section Lexemes

variable {l : Lexeme} {ls : List Lexeme}

/-- Behind a lexeme a quote is open only if the lexeme is the text behind that quote. -/
theorem foldl_quoteAfter_lexeme (h : Lexed (l :: ls)) (hn : NoBackquote l.text) :
    l.text.foldl quoteAfter none = none ↔ l.isUnclosed = false := by
  have hopen : ∀ {q : Char} {content : List Char}, Token.quotes.contains q = true →
      q ∉ content → (q :: content).foldl quoteAfter none = some q := by
    intro q content hq hc
    have hfirst : quoteAfter none q = some q := by
      rw [quoteAfter, quotes_contains_of_quote hq, if_pos rfl]
    rw [List.foldl_cons, hfirst, foldl_quoteAfter_some hc]
  have hplain : ∀ cs : List Char, (∀ c ∈ cs, Token.quotes.contains c = false) →
      NoBackquote cs → cs.foldl quoteAfter none = none := by
    intro cs hcs hn
    refine foldl_quoteAfter_none fun c hc => quotes_contains_eq_false ?_ (hcs c hc)
    rintro rfl
    exact hn hc
  cases h with
  | @blank c _ hc _ =>
    refine iff_of_true (hplain [c] (fun d hd => ?_) hn) rfl
    obtain rfl := List.mem_singleton.mp hd
    exact not_quote_of_isBlank hc
  | @mark c _ hc _ =>
    refine iff_of_true (hplain [c] (fun d hd => ?_) hn) rfl
    obtain rfl := List.mem_singleton.mp hd
    exact not_quote_of_mark hc
  | @word cs _ _ hcs _ _ =>
    exact iff_of_true (hplain cs (fun d hd => not_quote_of_isWordChar (hcs d hd)) hn) rfl
  | @quoted q content _ hq hmem _ =>
    refine iff_of_true ?_ rfl
    show ((q :: content) ++ [q]).foldl quoteAfter none = none
    rw [List.foldl_append, hopen hq hmem]
    exact if_pos (beq_self_eq_true q)
  | @unclosed q content hq hmem =>
    refine iff_of_false ?_ (by simp [Lexeme.isUnclosed])
    show (q :: content).foldl quoteAfter none ≠ none
    rw [hopen hq hmem]
    exact Option.some_ne_none q

/-- Where a text is not cut it has no mark that ends a statement. -/
theorem mark_not_mem_of_uncut (h : Lexed ls) (hn : NoBackquote (ls.flatMap Lexeme.text))
    (hu : Uncut none (ls.flatMap Lexeme.text)) : .mark ';' ∉ ls := by
  induction ls with
  | nil => exact List.not_mem_nil
  | cons l ls ih =>
    rw [List.flatMap_cons] at hn hu
    obtain ⟨hnl, hnls⟩ := noBackquote_append.mp hn
    obtain ⟨hul, huls⟩ := uncut_append.mp hu
    intro hmem
    rcases List.mem_cons.mp hmem with rfl | hls
    · exact hul.1 ⟨rfl, rfl⟩
    · cases hc : l.isUnclosed with
      | true =>
        cases h with
        | unclosed _ _ => exact List.not_mem_nil hls
        | _ => cases hc
      | false =>
        rw [(foldl_quoteAfter_lexeme h hnl).mpr hc] at huls
        exact ih h.tail hnls huls hls

/-- All quotes are closed just if no quote is open at the end. -/
theorem closed_iff_foldl (h : Lexed ls) (hn : NoBackquote (ls.flatMap Lexeme.text)) :
    (∀ l ∈ ls, l.isUnclosed = false) ↔
      (ls.flatMap Lexeme.text).foldl quoteAfter none = none := by
  induction ls with
  | nil => exact iff_of_true (List.forall_mem_nil _) rfl
  | cons l ls ih =>
    rw [List.flatMap_cons] at hn
    obtain ⟨hnl, hnls⟩ := noBackquote_append.mp hn
    have hfold := foldl_quoteAfter_lexeme h hnl
    rw [List.forall_mem_cons, List.flatMap_cons, List.foldl_append]
    cases hc : l.isUnclosed with
    | false => rw [hfold.mpr hc, ← ih h.tail hnls, and_iff_right rfl]
    | true =>
      -- only the last lexeme may be unclosed
      obtain rfl : ls = [] := by
        cases h with
        | unclosed _ _ => rfl
        | _ => cases hc
      refine iff_of_false (fun hclosed => nomatch hclosed.1) fun hnone => ?_
      rw [hfold.mp hnone] at hc
      cases hc

/-- If all quotes are closed there may be other lexemes behind them, with no word that goes on. -/
theorem Token.Lexed.append (h : Lexed ls) (hclosed : ∀ l ∈ ls, l.isUnclosed = false)
    {ms : List Lexeme} (hms : Lexed ms) (hfirst : ∀ ds, ms.head? ≠ some (.word ds)) :
    Lexed (ls ++ ms) := by
  induction h with
  | nil => exact hms
  | blank hb _ ih => exact .blank hb (ih fun l hl => hclosed l (List.mem_cons_of_mem _ hl))
  | mark hm _ ih => exact .mark hm (ih fun l hl => hclosed l (List.mem_cons_of_mem _ hl))
  | @word cs ls hne hcs hn _ ih =>
    refine .word hne hcs (fun ds => ?_) (ih fun l hl => hclosed l (List.mem_cons_of_mem _ hl))
    cases ls with
    | nil => exact hfirst ds
    | cons l ls => exact hn ds
  | quoted hq hmem _ ih =>
    exact .quoted hq hmem (ih fun l hl => hclosed l (List.mem_cons_of_mem _ hl))
  | unclosed _ _ => cases hclosed _ List.mem_cons_self

end Lexemes

section Texts

variable {cs : List Char}

theorem mark_not_mem_lexemes (hn : NoBackquote cs) (hu : Uncut none cs) :
    .mark ';' ∉ lexemes cs := by
  rw [← lexemes_text cs] at hn hu
  exact mark_not_mem_of_uncut (lexed_lexemes cs) hn hu

theorem closed_lexemes_iff (hn : NoBackquote cs) :
    (∀ l ∈ lexemes cs, l.isUnclosed = false) ↔ cs.foldl quoteAfter none = none := by
  have h := closed_iff_foldl (lexed_lexemes cs)
  rw [lexemes_text] at h
  exact h hn

/-- Behind a text with all its quotes closed another is scanned as it would be alone, unless a word
goes on. -/
theorem lexemes_append (hclosed : ∀ l ∈ lexemes cs, l.isUnclosed = false) {ds : List Char}
    (hds : Breaks ds) : lexemes (cs ++ ds) = lexemes cs ++ lexemes ds := by
  have hl := (lexed_lexemes cs).append hclosed (lexed_lexemes ds) (head?_lexemes_ne_word hds)
  have htext : (lexemes cs ++ lexemes ds).flatMap Lexeme.text = cs ++ ds := by
    rw [List.flatMap_append, lexemes_text, lexemes_text]
  rw [← htext, hl.lexemes_text]

theorem lexemes_append_semicolon (hclosed : ∀ l ∈ lexemes cs, l.isUnclosed = false)
    (ds : List Char) : lexemes (cs ++ ';' :: ds) = lexemes cs ++ Lexeme.mark ';' :: lexemes ds := by
  have hmark : marks.contains ';' = true := by decide
  rw [lexemes_append hclosed (breaks_cons (isWordChar_of_mark hmark) ds), lexemes_mark hmark]

theorem lexemes_semicolon (hclosed : ∀ l ∈ lexemes cs, l.isUnclosed = false) :
    lexemes (cs ++ [';']) = lexemes cs ++ [Lexeme.mark ';'] := by
  rw [lexemes_append_semicolon hclosed, lexemes_nil]

end Texts

/-! ### Semicolons that are no contents -/

/-- Without a mark that ends a statement, and with nothing between the quotes, no token in front of
an open quote is a semicolon. -/
theorem Token.Lexed.tokensWith_eq {ls : List Lexeme} (h : Lexed ls) (hm : .mark ';' ∉ ls) :
    ∃ before, ls.flatMap (Lexeme.tokensWith fun _ => "") = before ++ openEnd ls ∧
      ";" ∉ before := by
  have hcons : ∀ {t : Token} {before : List Token}, t ≠ ";" → ";" ∉ before →
      ";" ∉ t :: before := by
    intro t before ht hb hmem
    rcases List.mem_cons.mp hmem with he | hmem
    · exact ht he.symm
    · exact hb hmem
  induction h with
  | nil => exact ⟨[], rfl, List.not_mem_nil⟩
  | blank _ _ ih => exact ih fun h => hm (List.mem_cons_of_mem _ h)
  | @mark c _ _ _ ih =>
    obtain ⟨before, he, hb⟩ := ih fun h => hm (List.mem_cons_of_mem _ h)
    have hc : c.toString ≠ ";" := by
      intro h
      rw [← String.toList_inj] at h
      obtain rfl : c = ';' := by simpa using h
      exact hm List.mem_cons_self
    exact ⟨c.toString :: before, congrArg (c.toString :: ·) he, hcons hc hb⟩
  | @word cs _ hne hcs _ _ ih =>
    obtain ⟨before, he, hb⟩ := ih fun h => hm (List.mem_cons_of_mem _ h)
    have hc : String.ofList cs ≠ ";" :=
      (isWord_ofList hne hcs).ne_of_mark (show marks.contains ';' = true by decide)
    exact ⟨String.ofList cs :: before, congrArg (String.ofList cs :: ·) he, hcons hc hb⟩
  | @quoted q _ _ hq _ _ ih =>
    obtain ⟨before, he, hb⟩ := ih fun h => hm (List.mem_cons_of_mem _ h)
    have hc : q.toString ≠ ";" := by
      intro h
      have hquote := Expr.isQuote_toString hq
      rw [h] at hquote
      exact absurd hquote (by decide)
    refine ⟨q.toString :: "" :: q.toString :: before, ?_,
      hcons hc (hcons (by decide) (hcons hc hb))⟩
    exact congrArg ([q.toString, "", q.toString] ++ ·) he
  | unclosed _ _ => exact ⟨[], rfl, List.not_mem_nil⟩

theorem Alike.symm {stop : List Token} {cs cs' : List String} {ts ts' : List Token}
    (h : Alike stop cs cs' ts ts') : Alike stop cs' cs ts' ts := by
  induction h with
  | stop hb => exact .stop hb
  | name ht _ ih => exact .name ht ih
  | quoted hq _ ih => exact .quoted hq ih

theorem Alike.append_semicolon {cs cs' : List String} {ts ts' : List Token}
    (h : Alike [] cs cs' ts ts') : Alike [] cs cs' (ts ++ [";"]) (ts' ++ [";"]) := by
  have hsemicolon : Alike [] [] [] [";"] [";"] := .name (by decide) (.stop (.inl rfl))
  exact h.append hsemicolon

section Left

variable {text : String} {st : Statement} {rest before ts : List Token} {cs cs' : List String}
  (hread : Statement.read (Statement.terminate (scan text)) = .ok (st, rest)) (hplain : Plain st)

include hread hplain

/-- A statement does not end at a quote that is never closed, or behind it. -/
theorem not_read_of_alike {stop : List Token}
    (ha : Alike stop cs cs' (Statement.terminate (scan text)) ts) (hts : ts = before ++ stop)
    (hb : ";" ∉ before) : False := by
  obtain ⟨st', rest', hread', hrefill⟩ := steady_statement hread hplain ha
  obtain ⟨ds, ds', -, -, hrest⟩ := hrefill.alike
  obtain ⟨us, hus⟩ := Statement.left_of_read hread' hts hb
  have hlen := hrest.symm.stop_suffix.length_le
  rw [hus, List.length_append, List.length_cons] at hlen
  omega

/-- If the last semicolon is the only one, nothing is left behind it. -/
theorem left_eq_nil_of_alike (ha : Alike [] cs cs' (Statement.terminate (scan text)) ts)
    (hts : ts = before ++ [";"]) (hb : ";" ∉ before) : rest = [] := by
  obtain ⟨st', rest', hread', hrefill⟩ := steady_statement hread hplain ha
  obtain ⟨ds, ds', -, -, hrest⟩ := hrefill.alike
  obtain ⟨us, hus⟩ := Statement.left_of_read hread' hts hb
  obtain ⟨rfl, hnil⟩ : us = [] ∧ rest' = [] := by
    cases us with
    | nil => exact ⟨rfl, (List.cons.inj hus).2.symm⟩
    | cons u us => simp at hus
  subst hnil
  cases hrest
  rfl

/-- **Nothing is left behind the only mark that ends a statement**, if that is the last lexeme. -/
theorem left_eq_nil_of_last {ls : List Lexeme} (hl : Lexed ls)
    (hc : ∀ l ∈ ls, l.isUnclosed = false) (hm : .mark ';' ∉ ls)
    (ht : lexemes text.toList = ls ++ [.mark ';']) : rest = [] := by
  obtain ⟨before, he, hb⟩ := hl.tokensWith_eq hm
  have ha := hl.alike_with fun _ => ""
  rw [openEnd_eq_nil hc] at ha he
  rw [he, List.append_nil] at ha
  have hend := ha.append_semicolon
  have hscan : scan text = ls.flatMap Lexeme.tokens ++ [";"] := by
    rw [scan, ht, List.flatMap_append]
    rfl
  have hsame : Statement.terminate (scan text) = scan text :=
    if_pos (by rw [hscan, List.getLast?_concat])
  rw [← hscan, ← hsame] at hend
  exact left_eq_nil_of_alike hread hplain hend rfl hb

/-- **Nothing is left if there is no mark that ends a statement.** -/
theorem left_eq_nil_of_not_mem (hm : .mark ';' ∉ lexemes text.toList) : rest = [] := by
  have hl := lexed_lexemes text.toList
  have ha : Alike _ _ _ (scan text) _ := hl.alike_with fun _ => ""
  obtain ⟨before, he, hb⟩ := hl.tokensWith_eq hm
  rw [he] at ha
  by_cases hlast : (scan text).getLast? = some ";"
  · have hsame : Statement.terminate (scan text) = scan text := if_pos hlast
    rw [← hsame] at ha
    exact (not_read_of_alike hread hplain ha rfl hb).elim
  · have hsame : Statement.terminate (scan text) = scan text ++ [";"] := if_neg hlast
    rcases hl.blocked_openEnd with hnil | ⟨q, us, hq, hopen, hus⟩
    · rw [hnil, List.append_nil] at ha
      have hend := ha.append_semicolon
      rw [← hsame] at hend
      exact left_eq_nil_of_alike hread hplain hend rfl hb
    -- with a semicolon behind it the quote is not closed either
    · have hblocked : Blocked (openEnd (lexemes text.toList) ++ [";"]) := by
        refine .inr ⟨q, us ++ [";"], hq, by rw [hopen]; rfl, fun c vs h => ?_⟩
        rcases List.eq_nil_or_concat vs with rfl | ⟨vs, v, rfl⟩
        · have hclose : us ++ [";"] = [c] ++ [q] := h
          obtain ⟨-, hsemi⟩ := List.append_inj' hclose rfl
          cases hsemi
          exact absurd hq (by decide)
        · have hclose : us ++ [";"] = (c :: q :: vs) ++ [v] := by simpa using h
          exact hus c vs (List.append_inj' hclose rfl).1
      have hend := ha.append (.stop hblocked)
      rw [← hsame, List.append_assoc] at hend
      exact (not_read_of_alike hread hplain hend rfl hb).elim

end Left

/-! ### Statements of a script -/

namespace Script

/-- Blanks in front of a text are no quotes. -/
theorem foldl_quoteAfter_trimStart (cs : List Char) :
    (Text.trimStart cs).foldl quoteAfter none = cs.foldl quoteAfter none := by
  obtain ⟨blanks, hblanks, hcs⟩ := Text.exists_blank_trimStart cs
  have hfold := congrArg (List.foldl quoteAfter none) hcs
  rwa [List.foldl_append, foldl_quoteAfter_none_of_blank hblanks] at hfold

theorem uncut_trimStart {cs : List Char} (h : Uncut none cs) : Uncut none (Text.trimStart cs) := by
  obtain ⟨blanks, hblanks, hcs⟩ := Text.exists_blank_trimStart cs
  rw [← hcs, uncut_append, foldl_quoteAfter_none_of_blank hblanks] at h
  exact h.2

theorem trim_semicolon (cs : List Char) :
    Text.trim (cs ++ [';']) = Text.trimStart cs ++ [';'] := by
  have hstart : Text.trimStart (cs ++ [';']) = Text.trimStart cs ++ [';'] := by
    rw [Text.trimStart, List.dropWhile_append, Text.trimStart]
    cases hd : cs.dropWhile Text.isBlank <;> rfl
  have hblank : Text.isBlank ';' = false := by decide
  rw [Text.trim, hstart, Text.trimEnd, List.reverse_append, List.reverse_singleton,
    List.singleton_append, List.dropWhile_cons, if_neg (by rw [hblank]; decide),
    List.reverse_cons, List.reverse_reverse]

theorem statementOfPiece_eq_some {piece cs : List Char} (h : statementOfPiece piece = some cs) :
    cs = Text.trimStart piece ++ [';'] := by
  unfold statementOfPiece at h
  split at h
  · cases h
  · rw [← trim_semicolon]
    exact (Option.some.inj h).symm

theorem statementOfTail_eq_some {tail cs : List Char} (h : statementOfTail tail = some cs) :
    cs <+: Text.trimStart tail := by
  unfold statementOfTail at h
  split at h
  · cases h
  · obtain rfl := Option.some.inj h
    rw [Text.trim, Text.trimEnd, ← List.reverse_suffix, List.reverse_reverse]
    exact List.dropWhile_suffix _

/-- A statement of a script has one mark that ends it, as its last lexeme, or none. -/
theorem semicolon_of_mem_statements {script text : String} (hn : NoBackquote script.toList)
    (h : text ∈ statements script) :
    (∃ ls, Lexed ls ∧ (∀ l ∈ ls, l.isUnclosed = false) ∧ .mark ';' ∉ ls ∧
      lexemes text.toList = ls ++ [.mark ';']) ∨ .mark ';' ∉ lexemes text.toList := by
  have hpieces := pieces_of_cut none script.toList
  have htext := cut_text none script.toList
  have hstart : ∀ cs : List Char, Text.trimStart cs ⊆ cs :=
    fun cs => (List.dropWhile_suffix _).subset
  rw [statements_eq] at h
  obtain ⟨cs, hcs, rfl⟩ := List.mem_map.mp h
  rw [String.toList_ofList]
  rcases List.mem_append.mp hcs with hcs | hcs
  · obtain ⟨piece, hpiece, hstatement⟩ := List.mem_filterMap.mp hcs
    obtain rfl := statementOfPiece_eq_some hstatement
    obtain ⟨hu, hq⟩ := hpieces.uncut_piece rfl hpiece
    have hquote := (foldl_quoteAfter_trimStart piece).trans hq
    have hno : NoBackquote (Text.trimStart piece) := by
      intro hm
      refine hn (htext ▸ List.mem_append_left _ (List.mem_flatMap.mpr ⟨piece, hpiece, ?_⟩))
      exact List.mem_append_left _ (hstart piece hm)
    have hclosed := (closed_lexemes_iff hno).mpr hquote
    exact .inl ⟨_, lexed_lexemes _, hclosed, mark_not_mem_lexemes hno (uncut_trimStart hu),
      lexemes_semicolon hclosed⟩
  · obtain ⟨ds, hds⟩ := statementOfTail_eq_some (Option.mem_toList.mp hcs)
    have hu := uncut_trimStart (hpieces.uncut_tail rfl)
    rw [← hds] at hu
    have hno : NoBackquote cs := by
      intro hm
      refine hn (htext ▸ List.mem_append_right _ (hstart _ ?_))
      exact hds ▸ List.mem_append_left _ hm
    exact .inr (mark_not_mem_lexemes hno (uncut_append.mp hu).1)

end Script

/-- **One statement, and nothing else.**  The tokens that are taken spell the statement up to its
semicolon, and the tokens behind it are not looked at.  There are none if the last token is the only
semicolon, and none in a statement of a script without backquotes, unless a quote is taken for a
name. -/
theorem parse_one_statement {text : String} {st : Statement} (h : Statement.parse text = .ok st) :
    ∃ front rest, Statement.terminate (scan text) = front ++ rest ∧ Statement.Spells st front ∧
      (∀ us, Statement.read (front ++ us) = .ok (st, us)) ∧
      (";" ∉ (Statement.terminate (scan text)).dropLast → rest = []) ∧
      ∀ script : String, '\x60' ∉ script.toList → text ∈ Script.statements script → Plain st →
        rest = [] := by
  obtain ⟨rest, hread⟩ := Statement.parse_eq_ok_iff.mp h
  obtain ⟨front, hts, hs, hl⟩ := Statement.spells_of_read hread
  refine ⟨front, rest, hts, hs, hl, fun hlast => ?_, fun script hn hmem hplain => ?_⟩
  · obtain ⟨us, rfl⟩ := hs.ends
    cases rest with
    | nil => rfl
    | cons t rest =>
      rw [hts, List.dropLast_append_of_ne_nil (List.cons_ne_nil t rest)] at hlast
      exact (hlast (by simp)).elim
  · rcases Script.semicolon_of_mem_statements hn hmem with ⟨ls, hlexed, hc, hm, ht⟩ | hm
    · exact left_eq_nil_of_last hread hplain hlexed hc hm ht
    · exact left_eq_nil_of_not_mem hread hplain hm

/-- A query for one column and no table. -/
def oneColumn (column : String) : Statement :=
  .query { columns := [⟨.column column, none⟩] }

theorem parse_one_statement_examples :
    (Statement.parse "SELECT a" = .ok (oneColumn "a") ∧
      Statement.Spells (oneColumn "a") ["SELECT", "a", ";"]) ∧
    -- a semicolon in a quoted text ends neither the piece nor the statement
    ("SELECT 'x; y' AS n FROM t;" ∈ Script.statements "SELECT 'x; y' AS n FROM t; SELECT a" ∧
      Statement.parse "SELECT 'x; y' AS n FROM t;" = .ok quotedSemicolon ∧
      Statement.Spells quotedSemicolon
        ["SELECT", "'", "x; y", "'", "AS", "n", "FROM", "t", ";"]) ∧
    -- what stands behind the first semicolon is not looked at
    (Statement.parse "SELECT a; b" = .ok (oneColumn "a") ∧
      Statement.read (Statement.terminate (scan "SELECT a; b")) =
        .ok (oneColumn "a", ["b", ";"])) ∧
    -- nor does a backquote keep it together with what is in front
    ("SELECT \x60a;b\x60" ∈ Script.statements "SELECT \x60a;b\x60" ∧
      Statement.read (Statement.terminate (scan "SELECT \x60a;b\x60")) =
        .ok (oneColumn "\x60a", ["b\x60", ";"])) ∧
    -- nor does a quote that is taken for an alias
    ("SELECT a AS ';'" ∈ Script.statements "SELECT a AS ';'" ∧
      Statement.read (Statement.terminate (scan "SELECT a AS ';'")) =
        .ok (quoteAlias, ["'", ";"])) := by
  have hone : Statement.parse "SELECT a" = .ok (oneColumn "a") :=
    eq_ok_of_toOption (by decide +kernel)
  have hmem : "SELECT 'x; y' AS n FROM t;" ∈
      Script.statements "SELECT 'x; y' AS n FROM t; SELECT a" := by decide +kernel
  have htwo : Statement.parse "SELECT 'x; y' AS n FROM t;" = .ok quotedSemicolon :=
    eq_ok_of_toOption (by decide +kernel)
  refine ⟨⟨hone, ?_⟩, ⟨hmem, htwo, ?_⟩, ⟨eq_ok_of_toOption (by decide +kernel),
    eq_ok_of_toOption (by decide +kernel)⟩,
    ⟨by decide +kernel, eq_ok_of_toOption (by decide +kernel)⟩,
    by decide +kernel, eq_ok_of_toOption (by decide +kernel)⟩
  · have hts : Statement.terminate (scan "SELECT a") = ["SELECT", "a", ";"] := by decide +kernel
    obtain ⟨front, rest, he, hs, -, hlast, -⟩ := parse_one_statement hone
    rw [hts] at he hlast
    rw [hlast (by decide), List.append_nil] at he
    exact he ▸ hs
  · have hts : Statement.terminate (scan "SELECT 'x; y' AS n FROM t;") =
        ["SELECT", "'", "x; y", "'", "AS", "n", "FROM", "t", ";"] := by decide +kernel
    obtain ⟨front, rest, he, hs, -, -, hpiece⟩ := parse_one_statement htwo
    rw [hts, hpiece _ (by decide) hmem (by decide +kernel), List.append_nil] at he
    exact he ▸ hs

end QueryTrace

/-
Quoted texts in what is parsed.

What stands between two quotes is meant to be a text and nothing else, and a quote that is never
closed is meant to be refused.  Both hold as long as no quote is taken for a name.

* `AtClosing`, `InContent` — where a reader is that took a quote for a name;
* **`Reads.outOfStep`** — a reader of expressions that is out of step with the quotes stays out of
  step, so that an expression that takes up a whole text has no quote among its names;
* **`parse_closed`** — the contents of the quoted texts are the texts of the tree, and another
  content gives another text in the same tree;
* **`parse_unclosed`** — a text with a quote that is never closed is refused.

Design notes: a statement may take a quote for an alias, for a table or for the column behind a
point, and it may end in front of the end of the text.  These are the exceptions in both theorems,
and the inputs behind each theorem have them.
-/
import QueryTrace.Proofs.Quoting

namespace QueryTrace

open Token

/-! ### Out of step -/

/-- The tokens go on with their quotes in pairs, to the end. -/
def InStep (ts : List Token) : Prop :=
  ∃ cs, Alike [] cs cs ts ts

/-- The tokens begin with the closing quote of a quoted text. -/
def AtClosing (ts : List Token) : Prop :=
  ∃ q us, isQuote q = true ∧ InStep us ∧ ts = q :: us

/-- The tokens begin with the content of a quoted text. -/
def InContent (ts : List Token) : Prop :=
  ∃ c us, AtClosing us ∧ ts = c :: us

/-- Was the last quote taken for a name? -/
def OutOfStep (ts : List Token) : Prop :=
  AtClosing ts ∨ InContent ts

variable {t : Token} {ts rest : List Token}

theorem InStep.of_name (h : InStep (t :: ts)) (ht : isQuote t = false) : InStep ts := by
  obtain ⟨cs, h⟩ := h
  obtain ⟨us, he, hus⟩ := h.of_name ht
  cases he
  exact ⟨cs, hus⟩

theorem InStep.of_quote (h : InStep (t :: ts)) (ht : isQuote t = true) :
    ∃ c us, InStep us ∧ ts = c :: t :: us := by
  obtain ⟨cs, h⟩ := h
  cases h with
  | name hn _ =>
    rw [ht] at hn
    cases hn
  | @quoted q c c' cs cs' us us' _ rest => exact ⟨c, us, ⟨cs, rest⟩, rfl⟩

theorem AtClosing.isQuote_head (h : AtClosing (t :: ts)) : isQuote t = true := by
  obtain ⟨q, us, hq, -, he⟩ := h
  cases he
  exact hq

theorem OutOfStep.ne_nil (h : OutOfStep ts) : ts ≠ [] := by
  rcases h with ⟨q, us, -, -, rfl⟩ | ⟨c, us, -, rfl⟩ <;> simp

/-- Out of step only a content can be taken for something that is no quote. -/
theorem OutOfStep.tail (h : OutOfStep (t :: ts)) (ht : isQuote t = false) : AtClosing ts := by
  rcases h with h | ⟨c, us, hus, he⟩
  · rw [h.isQuote_head] at ht
    cases ht
  · cases he
    exact hus

open QueryTrace.Expr

theorem InStep.nextOperator {op : BinOp} (h : InStep ts)
    (hn : nextOperator ts = .ok (some (op, rest))) : InStep rest := by
  obtain ⟨cs, h⟩ := h
  obtain ⟨rest', hn', hrest⟩ := h.nextOperator_some hn
  rw [hn] at hn'
  cases hn'
  exact ⟨cs, hrest⟩

theorem OutOfStep.nextOperator {op : BinOp} (h : OutOfStep ts)
    (hn : nextOperator ts = .ok (some (op, rest))) : AtClosing rest := by
  cases ts with
  | nil => exact (h.ne_nil rfl).elim
  | cons t ts =>
    have ht : isQuote t = false := by
      cases ht : isQuote t with
      | false => rfl
      | true =>
        rw [nextOperator_quote ht] at hn
        cases hn
    have hts := h.tail ht
    have hmark : ∀ m, isQuote m = false → ts ≠ m :: rest := by
      rintro m hm rfl
      rw [hts.isQuote_head] at hm
      cases hm
    rcases nextOperator_eq_some hn with rfl | he | he
    · exact hts
    · exact (hmark "=" (by decide) he).elim
    · exact (hmark ">" (by decide) he).elim

/-- A quoted text that begins at a closing quote ends at an opening one, or just in front of another
closing one. -/
theorem AtClosing.quoted {q content : Token} (h : AtClosing (q :: content :: q :: rest)) :
    OutOfStep rest := by
  obtain ⟨q', us, hq, hus, he⟩ := h
  cases he
  cases hc : isQuote content with
  | true =>
    obtain ⟨c, vs, hvs, he⟩ := hus.of_quote hc
    cases he
    exact .inl ⟨content, vs, hc, hvs, rfl⟩
  | false =>
    obtain ⟨c, vs, hvs, rfl⟩ := (hus.of_name hc).of_quote hq
    exact .inr ⟨c, q :: vs, ⟨q, vs, hq, hvs, rfl⟩, rfl⟩

/-- In step a name is read as one, and only behind a point it may be a quote. -/
theorem InStep.name {first : Token} {e : Expr} (h : InStep (first :: ts))
    (hq : isQuote first = false) (hn : Reader.run readName (first :: ts) = .ok (e, rest)) :
    Plain e ∧ InStep rest ∨ OutOfStep rest := by
  have hts := h.of_name hq
  rcases run_readName_eq_ok hn with ⟨rfl, rfl⟩ | ⟨second, rfl, rfl⟩
  · refine .inl ⟨?_, hts⟩
    cases Text.isNumeral first <;> simp [Plain, Literals.names, Expr.names, hq]
  · have hsecond := hts.of_name (by decide)
    cases hs : isQuote second with
    | true =>
      obtain ⟨c, us, hus, rfl⟩ := hsecond.of_quote hs
      exact .inr (.inr ⟨c, second :: us, ⟨second, us, hs, hus, rfl⟩, rfl⟩)
    | false =>
      refine .inl ⟨?_, hsecond.of_name hs⟩
      cases Text.isNumeral first && Text.isNumeral second <;>
        simp [Plain, Literals.names, Expr.names, hq, hs]

/-- **Out of step is out of step for good**, and as long as a phrase is read in step no name in it
is a quote. -/
theorem Expr.Reads.outOfStep {p : Phrase} (h : Reads p ts rest) :
    (AtClosing ts → OutOfStep rest) ∧ (InStep ts → Plain p ∧ InStep rest ∨ OutOfStep rest) := by
  induction h with
  | paren _ ih =>
    refine ⟨fun hts => (absurd hts.isQuote_head (by decide)), fun hts => ?_⟩
    rcases ih.2 (hts.of_name (by decide)) with ⟨hp, hrest⟩ | hrest
    · exact .inl ⟨hp, hrest.of_name (by decide)⟩
    · exact .inr (.inl (hrest.tail (by decide)))
  | quoted hq =>
    refine ⟨AtClosing.quoted, fun hts => ?_⟩
    obtain ⟨c, us, hus, he⟩ := hts.of_quote hq
    cases he
    exact .inl ⟨by simp [Plain, Literals.names, Expr.names], hus⟩
  | call hf hq _ ih =>
    refine ⟨fun hts => ?_, fun hts => ?_⟩
    · rw [hts.isQuote_head] at hq
      cases hq
    rcases ih.2 ((hts.of_name hq).of_name (by decide)) with ⟨hp, hrest⟩ | hrest
    · exact .inl ⟨List.forall_mem_cons.mpr ⟨hq, hp⟩, hrest.of_name (by decide)⟩
    · exact .inr (.inl (hrest.tail (by decide)))
  | name _ hq _ hn =>
    refine ⟨fun hts => ?_, fun hts => hts.name hq hn⟩
    rw [hts.isQuote_head] at hq
    cases hq
  | last _ _ ih =>
    refine ⟨ih.1, fun hts => ?_⟩
    rcases ih.2 hts with ⟨hp, hrest⟩ | hrest
    · exact .inl ⟨List.forall_mem_append.mpr ⟨hp, by simp [Literals.names]⟩, hrest⟩
    · exact .inr hrest
  -- behind an operand that was read out of step the operator can only be a content, so the chain
  -- goes on at a closing quote
  | more _ hn _ ih ih' =>
    refine ⟨fun hts => ih'.1 ((ih.1 hts).nextOperator hn), fun hts => ?_⟩
    rcases ih.2 hts with ⟨hp, hmid⟩ | hmid
    · rcases ih'.2 (hmid.nextOperator hn) with ⟨hp', hrest⟩ | hrest
      · exact .inl ⟨List.forall_mem_append.mpr ⟨hp, hp'⟩, hrest⟩
      · exact .inr hrest
    · exact .inr (ih'.1 (hmid.nextOperator hn))
  | @expr head tail _ _ _ ih =>
    refine ⟨ih.1, fun hts => ?_⟩
    rcases ih.2 hts with ⟨hp, hrest⟩ | hrest
    · refine .inl ⟨?_, hrest⟩
      show ∀ n ∈ (ofChain head tail).names, isQuote n = false
      rw [names_ofChain]
      exact hp
    · exact .inr hrest

/-- An expression that takes up all tokens has no quote among its names. -/
theorem plain_of_reads {e : Expr} (h : Reads (.expr e) ts []) (hts : InStep ts) : Plain e := by
  rcases h.outOfStep.2 hts with ⟨hp, -⟩ | hrest
  · exact hp
  · exact (hrest.ne_nil rfl).elim

/-! ### What the texts become -/

section Refill

variable {α : Type} [Literals α] {a a' : α} {cs : List String} {stop rest' : List Token}

/-- The texts are the first contents. -/
theorem Refill.prefix_texts {cs' : List String} (h : Refill stop a a' cs cs' rest rest') :
    texts a <+: cs := by
  obtain ⟨ds, ds', rfl, -, -⟩ := h.alike
  exact List.prefix_append _ _

/-- If nothing is left there are no other contents. -/
theorem Refill.texts_eq {cs' : List String} (h : Refill [] a a' cs cs' [] rest') :
    texts a = cs := by
  obtain ⟨ds, ds', rfl, -, hd⟩ := h.alike
  cases hd
  exact (List.append_nil _).symm

/-- One content more or less different, one text at most is different. -/
theorem Refill.texts_set {k : Nat} {new : String}
    (h : Refill stop a a' cs (cs.set k new) rest rest') : texts a' = (texts a).set k new := by
  obtain ⟨ds, ds', hcs, hcs', -⟩ := h.alike
  have hlen := length_texts_eq h.blank_eq
  have htake : texts a' = (cs.set k new).take (texts a).length := by
    rw [hcs', ← hlen, List.take_left']
    rfl
  rw [htake, List.take_set, hcs, List.take_left']
  rfl

end Refill

/-! ### Texts with all quotes closed -/

/-- Another content of a quoted text is parsed as well, with the same result but for the one text in
it. -/
def Exchanges {α : Type} [Literals α] (parse : String → Except SyntaxError α) (text : String)
    (a : α) : Prop :=
  ∀ (p : QuotedPiece text) (new : String), p.quote ∉ new.toList →
    ∃ a', parse (p.replace new) = .ok a' ∧ blank a' = blank a ∧
      texts a' = (texts a).set p.place new

/-- Does the statement at the beginning of the text take up all its tokens? -/
def Statement.TakesAll (text : String) : Prop :=
  ∃ st, Statement.read (Statement.terminate (scan text)) = .ok (st, [])

/-- Both inputs get a semicolon behind their last tokens, or both have one there. -/
theorem Alike.terminate {stop stop' : List Token} {cs cs' : List String} {ts ts' : List Token}
    (h : Alike stop cs cs' ts ts') (hs : Alike stop' [] [] (stop ++ [";"]) (stop ++ [";"])) :
    Alike stop cs cs' (Statement.terminate ts) (Statement.terminate ts') ∨
      Alike stop' cs cs' (Statement.terminate ts) (Statement.terminate ts') := by
  rw [Statement.terminate, Statement.terminate, h.getLast?_eq]
  by_cases hl : ts.getLast? = some ";"
  · rw [if_pos hl, if_pos hl]
    exact .inl h
  · rw [if_neg hl, if_neg hl]
    exact .inr (h.append hs)

theorem Alike.terminate_closed {cs cs' : List String} {ts ts' : List Token}
    (h : Alike [] cs cs' ts ts') :
    Alike [] cs cs' (Statement.terminate ts) (Statement.terminate ts') :=
  (h.terminate (.name (by decide) (.stop (.inl rfl)))).elim id id

section Closed

variable {text : String} (hc : Closed text)

include hc

theorem alike_scan : Alike [] (contents (lexemes text.toList)) (contents (lexemes text.toList))
    (scan text) (scan text) :=
  openEnd_eq_nil hc ▸ (lexed_lexemes text.toList).alike

theorem QuotedPiece.alike_of_closed (p : QuotedPiece text) {new : String}
    (h : p.quote ∉ new.toList) :
    Alike [] (contents (lexemes text.toList)) ((contents (lexemes text.toList)).set p.place new)
      (scan text) (scan (p.replace new)) := by
  have hbehind : openEnd p.behind = [] := by
    refine openEnd_eq_nil fun l hl => hc l ?_
    rw [p.lexemes_eq]
    exact List.mem_append_right _ (List.mem_cons_of_mem _ hl)
  exact hbehind ▸ p.alike h

theorem expr_of_closed {e : Expr} (h : Expr.parse text = .ok e) :
    texts e = contents (lexemes text.toList) ∧ Exchanges Expr.parse text e := by
  have hr := parse_eq_ok_iff.mp h
  have hread : Expr.read (scan text) = .ok (e, []) := read_eq_ok_iff.mpr hr
  have hplain : Plain e := plain_of_reads hr ⟨_, alike_scan hc⟩
  constructor
  · obtain ⟨e', rest', -, hrefill⟩ := steady_expr hread hplain (alike_scan hc)
    exact hrefill.texts_eq
  · intro p new hnew
    obtain ⟨e', rest', hread', hrefill⟩ := steady_expr hread hplain (p.alike_of_closed hc hnew)
    obtain ⟨ds, ds', -, -, hrest⟩ := hrefill.alike
    cases hrest
    exact ⟨e', parse_eq_ok_iff.mpr (read_eq_ok_iff.mp hread'), hrefill.blank_eq, hrefill.texts_set⟩

theorem statement_of_closed {st : Statement} (h : Statement.parse text = .ok st)
    (hplain : Plain st) :
    texts st <+: contents (lexemes text.toList) ∧
      (Statement.TakesAll text → texts st = contents (lexemes text.toList)) ∧
      Exchanges Statement.parse text st := by
  obtain ⟨rest, hread⟩ := Statement.parse_eq_ok_iff.mp h
  obtain ⟨st', rest', hread', hrefill⟩ :=
    steady_statement hread hplain (alike_scan hc).terminate_closed
  refine ⟨hrefill.prefix_texts, ?_, ?_⟩
  · rintro ⟨st'', hall⟩
    rw [hread] at hall
    cases hall
    exact hrefill.texts_eq
  · intro p new hnew
    obtain ⟨st', rest', hread', hrefill⟩ :=
      steady_statement hread hplain (p.alike_of_closed hc hnew).terminate_closed
    exact ⟨st', Statement.parse_eq_ok_iff.mpr ⟨rest', hread'⟩, hrefill.blank_eq,
      hrefill.texts_set⟩

end Closed

/-- **Quoted texts are texts and nothing else.**  If all quotes of a text are closed, the texts of
an expression that is parsed from it are the contents of the quoted texts, in their order, and
another content changes that text only.  The same holds of a statement that has no quote for a name,
as far as the statement goes. -/
theorem parse_closed {text : String} (hc : Closed text) :
    (∀ e, Expr.parse text = .ok e →
      texts e = contents (lexemes text.toList) ∧ Exchanges Expr.parse text e) ∧
    ∀ st, Statement.parse text = .ok st → Plain st →
      texts st <+: contents (lexemes text.toList) ∧
        (Statement.TakesAll text → texts st = contents (lexemes text.toList)) ∧
        Exchanges Statement.parse text st := by
  constructor
  · intro e h
    exact expr_of_closed hc h
  · intro st h hplain
    exact statement_of_closed hc h hplain

/-- A query for a text that looks like the end of a statement. -/
def quotedSemicolon : Statement :=
  .query { columns := [⟨.text "x; y", some "n"⟩], tables := [⟨"t", none⟩] }

/-- A query whose alias is a quote. -/
def quoteAlias : Statement :=
  .query { columns := [⟨.column "a", some "'"⟩] }

/-- The quoted text behind its alias. -/
def aliasPiece : QuotedPiece "SELECT a AS ';'" where
  before := lexemes "SELECT a AS ".toList
  quote := '\''
  content := [';']
  behind := []
  lexemes_eq := by decide +kernel

theorem parse_closed_examples :
    (Closed "a = ';' OR \"it's\"" ∧ ∃ e, Expr.parse "a = ';' OR \"it's\"" = .ok e ∧
      texts e = [";", "it's"] ∧ Exchanges Expr.parse "a = ';' OR \"it's\"" e) ∧
    (Closed "SELECT 'x; y' AS n FROM t" ∧
      Statement.parse "SELECT 'x; y' AS n FROM t" = .ok quotedSemicolon ∧ Plain quotedSemicolon ∧
      texts quotedSemicolon <+: ["x; y"] ∧
      Exchanges Statement.parse "SELECT 'x; y' AS n FROM t" quotedSemicolon) ∧
    -- the quote is taken for an alias, and what it quotes for the end of the statement
    (Closed "SELECT a AS ';'" ∧ Statement.parse "SELECT a AS ';'" = .ok quoteAlias ∧
      ¬ Plain quoteAlias ∧ ¬ Exchanges Statement.parse "SELECT a AS ';'" quoteAlias) := by
  have hclosed : Closed "a = ';' OR \"it's\"" := by decide +kernel
  have hclosed' : Closed "SELECT 'x; y' AS n FROM t" := by decide +kernel
  have hparse : Expr.parse "a = ';' OR \"it's\"" =
      .ok (.binary .or (.binary .eq (.column "a") (.text ";")) (.text "it's")) :=
    eq_ok_of_toOption (by decide +kernel)
  have hparse' : Statement.parse "SELECT 'x; y' AS n FROM t" = .ok quotedSemicolon :=
    eq_ok_of_toOption (by decide +kernel)
  have hplain : Plain quotedSemicolon := by decide +kernel
  refine ⟨⟨hclosed, _, hparse, rfl, ?_⟩, ⟨hclosed', hparse', hplain, ?_, ?_⟩, by decide +kernel,
    eq_ok_of_toOption (by decide +kernel), by decide +kernel, fun h => ?_⟩
  · exact ((parse_closed hclosed).1 _ hparse).2
  · have hcontents : contents (lexemes "SELECT 'x; y' AS n FROM t".toList) = ["x; y"] := by
      decide +kernel
    exact hcontents ▸ ((parse_closed hclosed').2 _ hparse' hplain).1
  · exact ((parse_closed hclosed').2 _ hparse' hplain).2.2
  · -- with another content the statement does not end
    obtain ⟨st, hst, -⟩ := h aliasPiece "x" (by decide)
    have hnone : (Statement.parse (aliasPiece.replace "x")).toOption = none := by decide +kernel
    rw [hst] at hnone
    cases hnone

/-! ### Texts with a quote that is never closed -/

section Unclosed

variable {text : String} {q : Char} {content : List Char}
  (h : Lexeme.unclosed q content ∈ lexemes text.toList)

include h

theorem alike_unclosed : Alike [q.toString, String.ofList content] (contents (lexemes text.toList))
    (contents (lexemes text.toList)) (scan text) (scan text) :=
  openEnd_of_mem (lexed_lexemes text.toList) h ▸ (lexed_lexemes text.toList).alike

theorem isQuote_of_unclosed : isQuote q.toString = true := by
  have hblocked := (lexed_lexemes text.toList).blocked_openEnd
  rw [openEnd_of_mem (lexed_lexemes text.toList) h] at hblocked
  rcases hblocked with hnil | ⟨t, us, ht, he, -⟩
  · cases hnil
  · cases he
    exact ht

theorem not_plain_of_unclosed {e : Expr} (he : Expr.parse text = .ok e) : ¬ Plain e := by
  intro hplain
  have hread : Expr.read (scan text) = .ok (e, []) :=
    read_eq_ok_iff.mpr (parse_eq_ok_iff.mp he)
  obtain ⟨e', rest', -, hrefill⟩ := steady_expr hread hplain (alike_unclosed h)
  obtain ⟨ds, ds', -, -, hrest⟩ := hrefill.alike
  -- the quote would have to be among the tokens that are left, and there are none
  cases List.suffix_nil.mp hrest.stop_suffix

theorem unclosed_left {st : Statement} {rest : List Token} (hplain : Plain st)
    (hread : Statement.read (Statement.terminate (scan text)) = .ok (st, rest)) :
    [q.toString, String.ofList content] <:+: rest := by
  have hstop : Alike [q.toString, String.ofList content, ";"] [] []
      [q.toString, String.ofList content, ";"] [q.toString, String.ofList content, ";"] := by
    refine .stop (.inr ⟨_, _, isQuote_of_unclosed h, rfl, fun c vs he => ?_⟩)
    have hq := isQuote_of_unclosed h
    rw [← (List.cons.inj (List.cons.inj he).2).1] at hq
    cases hq
  rcases (alike_unclosed h).terminate hstop with ha | ha
  · obtain ⟨st', rest', -, hrefill⟩ := steady_statement hread hplain ha
    obtain ⟨ds, ds', -, -, hrest⟩ := hrefill.alike
    exact hrest.stop_suffix.isInfix
  · obtain ⟨st', rest', -, hrefill⟩ := steady_statement hread hplain ha
    obtain ⟨ds, ds', -, -, hrest⟩ := hrefill.alike
    exact List.IsInfix.trans ⟨[], [";"], rfl⟩ hrest.stop_suffix.isInfix

end Unclosed

/-- **A quote that is never closed is refused**, by the reader of expressions unless a quote is
taken for a name, and by the reader of statements unless that happens or the statement ends in front
of the quote. -/
theorem parse_unclosed {text : String} {q : Char} {content : List Char}
    (h : Lexeme.unclosed q content ∈ lexemes text.toList) :
    ((∃ cause, Expr.parse text = .error cause) ∨
      ∃ e, Expr.parse text = .ok e ∧ ¬ Plain e) ∧
    ((∃ cause, Statement.parse text = .error cause) ∨
      ∃ st rest, Statement.parse text = .ok st ∧
        Statement.read (Statement.terminate (scan text)) = .ok (st, rest) ∧
        (¬ Plain st ∨ [q.toString, String.ofList content] <:+: rest)) := by
  constructor
  · cases he : Expr.parse text with
    | error cause => exact .inl ⟨cause, rfl⟩
    | ok e => exact .inr ⟨e, rfl, not_plain_of_unclosed h he⟩
  · cases hst : Statement.parse text with
    | error cause => exact .inl ⟨cause, rfl⟩
    | ok st =>
      obtain ⟨rest, hread⟩ := Statement.parse_eq_ok_iff.mp hst
      refine .inr ⟨st, rest, rfl, hread, ?_⟩
      by_cases hplain : Plain st
      · exact .inr (unclosed_left h hplain hread)
      · exact .inl hplain

theorem parse_unclosed_examples :
    (.unclosed '\'' ['b'] ∈ lexemes "a = 'b".toList ∧
      ∃ cause, Expr.parse "a = 'b" = .error cause) ∧
    -- a quote for the column behind a point
    (.unclosed '\'' [')'] ∈ lexemes "(x.')".toList ∧
      Expr.parse "(x.')" = .ok (.qualified "x" "'") ∧ ¬ Plain (Expr.qualified "x" "'")) ∧
    -- a quote for an alias, and one behind the end of the statement
    (.unclosed '\'' [';'] ∈ lexemes "SELECT a AS ';".toList ∧
      Statement.parse "SELECT a AS ';" = .ok quoteAlias) ∧
    (.unclosed '\'' ['b'] ∈ lexemes "SELECT a; 'b".toList ∧
      Statement.read (Statement.terminate (scan "SELECT a; 'b")) =
        .ok (.query { columns := [⟨.column "a", none⟩] }, ["'", "b", ";"])) := by
  have hexpr : .unclosed '\'' ['b'] ∈ lexemes "a = 'b".toList := by decide +kernel
  have hpoint : .unclosed '\'' [')'] ∈ lexemes "(x.')".toList := by decide +kernel
  have hparse : Expr.parse "(x.')" = .ok (.qualified "x" "'") :=
    eq_ok_of_toOption (by decide +kernel)
  refine ⟨⟨hexpr, ?_⟩, ⟨hpoint, hparse, ?_⟩, ⟨by decide +kernel, ?_⟩, by decide +kernel, ?_⟩
  · rcases (parse_unclosed hexpr).1 with hcause | ⟨e, he, -⟩
    · exact hcause
    · have hnone : (Expr.parse "a = 'b").toOption = none := by decide +kernel
      rw [he] at hnone
      cases hnone
  · rcases (parse_unclosed hpoint).1 with ⟨cause, he⟩ | ⟨e, he, hplain⟩
    · rw [hparse] at he
      cases he
    · rw [hparse] at he
      cases he
      exact hplain
  · exact eq_ok_of_toOption (by decide +kernel)
  · exact eq_ok_of_toOption (by decide +kernel)

end QueryTrace

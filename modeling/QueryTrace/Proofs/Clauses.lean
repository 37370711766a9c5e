/-
Expressions, lists and clauses of printed statements.

A statement is printed clause by clause, and the readers take its tokens apart in the same places.
This file is about the parts of a statement, each for itself.

* `Expr.WellFormed` — which expressions can be written down in a statement;
* `Written text ts` — wherever the text stands, the scanner finds the tokens `ts` in it;
* `ReadBack item toks ks a` — wherever the tokens of `a` stand in front of one of `ks`, the reader
  `item` makes `a` from them;
* `Written.clause` and `readBack_clause` — the same for a clause, which may be absent.

Design notes: what may follow a part of a statement is one token of a short list, and each list is
checked once.  The lists end with the keywords of the clauses, so a clause that is absent is skipped
because the token that is there instead is another keyword.
-/
import QueryTrace.Statement.Parser
import QueryTrace.Statement.Printer
import QueryTrace.Proofs.Spelling

namespace QueryTrace

open Token

/-! ### Well-formed expressions -/

/-- Are all names words, all numbers numbers, and all texts free of one kind of quote?  A column may
also be a star, and no name has the form of a number. -/
def Expr.WellFormed : Expr → Prop
  | number raw => IsNumber raw
  | text content => '"' ∉ content.toList ∨ '\'' ∉ content.toList
  | column name => (IsWord name ∨ name = "*") ∧ Text.isNumeral name = false
  | qualified table name => IsWord table ∧ (IsWord name ∨ name = "*") ∧
    (Text.isNumeral table && Text.isNumeral name) = false
  | aggregate function argument => IsWord function ∧ argument.WellFormed
  | binary _ l r => l.WellFormed ∧ r.WellFormed

/-- Is the new name a word, if there is one? -/
def Aliased.NameWellFormed {α : Type} (a : Aliased α) : Prop :=
  ∀ name, a.name? = some name → IsWord name

theorem isName_star : IsName "*" :=
  .inr ⟨'*', by decide, rfl⟩

theorem isName_of_word_or_star {t : Token} (ht : IsWord t ∨ t = "*") : IsName t := by
  rcases ht with ht | rfl
  · exact .inl ht
  · exact isName_star

namespace Expr

theorem WellFormed.readable {e : Expr} (h : e.WellFormed) : e.Readable := by
  induction e with
  | number raw => exact h
  | text content => exact h
  | column name =>
    refine ⟨isName_of_word_or_star h.1, ?_, h.2⟩
    rcases h.1 with hw | rfl
    · exact hw.ne_of_mark (c := '(') (by decide)
    · decide
  | qualified table name =>
    exact ⟨.inl h.1, h.1.ne_of_mark (c := '(') (by decide),
      .inl (isName_of_word_or_star h.2.1), h.2.2⟩
  | aggregate f a ih => exact ⟨.inl h.1, h.1.ne_of_mark (c := '(') (by decide), ih h.2⟩
  | binary op l r ihl ihr => exact ⟨ihl h.1, ihr h.2⟩

/-- A well-formed expression begins with no half of an operator. -/
theorem WellFormed.leadingName_ne {e : Expr} (h : e.WellFormed) {c : Char}
    (hc : c = '=' ∨ c = '>') : e.leadingName ≠ some c.toString := by
  have hm : marks.contains c = true := by
    rcases hc with rfl | rfl <;> decide
  have hword : ∀ {t : Token}, IsWord t → some t ≠ some c.toString := by
    intro t ht he
    cases he
    exact ht.ne_of_mark hm rfl
  cases e with
  | column name =>
    rcases h.1 with hw | rfl
    · exact hword hw
    · rcases hc with rfl | rfl <;> decide
  | qualified table name => exact hword h.1
  | aggregate f a => exact hword h.1
  | number raw => simp [leadingName]
  | text content => simp [leadingName]
  | binary op l r => simp [leadingName]

theorem WellFormed.noMerge {e : Expr} (h : e.WellFormed) : e.NoMerge := by
  induction e with
  | aggregate f a ih => exact ih h.2
  | binary op l r ihl ihr =>
    refine ⟨ihl h.1, ihr h.2, ?_⟩
    rintro (⟨-, hm | hm⟩ | ⟨-, hm⟩)
    · exact h.2.leadingName_ne (.inl rfl) hm
    · exact h.2.leadingName_ne (.inr rfl) hm
    · exact h.2.leadingName_ne (.inl rfl) hm
  | _ => trivial

theorem WellFormed.quotesHarmless {e : Expr} (h : e.WellFormed) (behind : Option Nat) :
    e.QuotesHarmless behind := by
  induction e generalizing behind with
  | qualified table name =>
    intro hq
    rw [(isName_of_word_or_star h.2.1).isQuote_eq_false] at hq
    cases hq
  | aggregate f a ih => exact ih h.2 _
  | binary op l r ihl ihr => exact ⟨ihl h.1 _, ihr h.2 _⟩
  | _ => trivial

end Expr

/-! ### Pieces of text and their tokens -/

/-- Wherever the text stands and ends, it has the tokens. -/
def Written (text : String) (ts : List Token) : Prop :=
  ∀ cs, Breaks cs → tokensOf (text.toList ++ cs) = ts ++ tokensOf cs

section Writing

variable {α : Type} {text : α → String} {toks : α → List Token}

theorem written_name {t : Token} (ht : IsName t) : Written t [t] :=
  fun _ hb => tokensOf_name ht hb

theorem written_print {e : Expr} (h : e.WellFormed) : Written e.print e.spell := by
  intro cs hcs
  have hb : Expr.Behind none cs := hcs
  exact Expr.tokensOf_print h.readable hb (h.quotesHarmless none)

/-- A blank may be put between two pieces. -/
theorem Written.space {a b : String} {ts us : List Token} (ha : Written a ts)
    (hb : Written b us) : Written (a ++ " " ++ b) (ts ++ us) := by
  intro cs hcs
  have hchars : (a ++ " " ++ b).toList ++ cs = a.toList ++ ' ' :: (b.toList ++ cs) := by simp
  rw [hchars, ha _ (breaks_cons (by decide) _), tokensOf_space, hb cs hcs, List.append_assoc]

theorem Written.semicolon {a : String} {ts : List Token} (h : Written a ts) :
    Written (a ++ ";") (ts ++ [";"]) := by
  intro cs _
  have hchars : (a ++ ";").toList ++ cs = a.toList ++ ';' :: cs := by simp
  rw [hchars, h _ (breaks_cons (by decide) _), tokensOf_mark (by decide), List.append_assoc]
  rfl

/-- The tokens of an item and of the name it was given. -/
def Aliased.tokens (toks : α → List Token) (a : Aliased α) : List Token :=
  match a.name? with
  | some name => toks a.item ++ ["AS", name]
  | none => toks a.item

/-- The tokens of several items, with commas between them. -/
def listTokens (toks : α → List Token) : List α → List Token
  | [] => []
  | [a] => toks a
  | a :: b :: more => toks a ++ "," :: listTokens toks (b :: more)

/-- The tokens of a clause behind those of its keyword, or nothing if it is absent. -/
def clauseTokens (keyword : List Token) (toks : α → List Token) : Option α → List Token
  | some a => keyword ++ toks a
  | none => []

theorem written_aliased {a : Aliased α} (h : Written (text a.item) (toks a.item))
    (hn : a.NameWellFormed) : Written (a.print text) (a.tokens toks) := by
  obtain ⟨item, name⟩ := a
  cases name with
  | none => exact h
  | some name =>
    have has : IsName "AS" := .inl (by decide)
    have := (h.space (written_name has)).space (written_name (.inl (hn name rfl)))
    simpa [Written, Aliased.print, Aliased.tokens] using this

theorem written_list {items : List α} (hne : items ≠ [])
    (h : ∀ a ∈ items, Written (text a) (toks a)) :
    Written (Select.printList text items) (listTokens toks items) := by
  induction items with
  | nil => exact (hne rfl).elim
  | cons a more ih =>
    cases more with
    | nil => simpa [Select.printList, listTokens] using h a (by simp)
    | cons b more =>
      have ih := ih (by simp) fun c hc => h c (by simp [hc])
      intro cs hcs
      have hchars : (Select.printList text (a :: b :: more)).toList ++ cs =
          (text a).toList ++ ',' :: ' ' :: ((Select.printList text (b :: more)).toList ++ cs) := by
        simp [Select.printList]
      rw [hchars, h a (by simp) _ (breaks_cons (by decide) _), tokensOf_mark (by decide),
        tokensOf_space, ih cs hcs]
      simp [listTokens]

/-- A clause may be put behind a piece. -/
theorem Written.clause {before keyword : String} {ts ks : List Token} (hb : Written before ts)
    (hk : Written keyword ks) {clause : Option α}
    (h : ∀ a, clause = some a → Written (text a) (toks a)) :
    Written (before ++ Select.printClause keyword text clause)
      (ts ++ clauseTokens ks toks clause) := by
  cases clause with
  | none => simpa [Select.printClause, clauseTokens] using hb
  | some a =>
    have := hb.space (hk.space (h a rfl))
    have hchars : before ++ Select.printClause keyword text (some a) =
        before ++ " " ++ (keyword ++ " " ++ text a) := by
      simp [Select.printClause, String.append_assoc]
    rw [hchars]
    exact this

end Writing

/-! ### Reading the tokens back -/

/-- Do the tokens begin with one of the list? -/
def Begins (ks ts : List Token) : Prop :=
  ∃ k ∈ ks, ∃ rest, ts = k :: rest

/-- Wherever the tokens of `a` stand in front of one of the tokens `ks`, they are read as `a`. -/
def ReadBack {α : Type} (read : List Token → Except SyntaxError (α × List Token))
    (toks : α → List Token) (ks : List Token) (a : α) : Prop :=
  ∀ rest, Begins ks rest → read (toks a ++ rest) = .ok (a, rest)

/-- The tokens that a clause may end in front of. -/
def clauseEnds : List Token :=
  ["FROM", "WHERE", "GROUP", "HAVING", "ORDER", "LIMIT", ";"]

/-- The tokens that an item of a list may end in front of. -/
def itemEnds : List Token :=
  "," :: clauseEnds

/-- The tokens that an expression may end in front of. -/
def exprEnds : List Token :=
  "AS" :: "DESC" :: itemEnds

section Reading

variable {α : Type} {toks : α → List Token} {ks rest : List Token}

theorem Begins.mono {ks' : List Token} (h : Begins ks rest) (hk : ks.all ks'.contains = true) :
    Begins ks' rest := by
  obtain ⟨k, hmem, more, rfl⟩ := h
  exact ⟨k, by simpa using List.all_eq_true.mp hk k hmem, more, rfl⟩

theorem ReadBack.mono {read : List Token → Except SyntaxError (α × List Token)}
    {ks' : List Token} {a : α} (h : ReadBack read toks ks a)
    (hk : ks'.all ks.contains = true) : ReadBack read toks ks' a :=
  fun rest hr => h rest (hr.mono hk)

theorem Begins.nextIsKeyword_eq_false (h : Begins ks rest) {keyword : String}
    (hk : ks.all (fun k => !isKeyword keyword k) = true) :
    nextIsKeyword keyword rest = false := by
  obtain ⟨k, hmem, more, rfl⟩ := h
  simpa [nextIsKeyword] using List.all_eq_true.mp hk k hmem

theorem readBack_expr {e : Expr} (h : e.WellFormed) :
    ReadBack (Reader.run Expr.readExpr) Expr.spell exprEnds e := by
  rintro rest ⟨k, hk, more, rfl⟩
  -- no name, call or operator goes on with one of these tokens
  have hends : exprEnds.all (fun k => k != "." && k != "(" && k != "!" && k != "<" && k != ">" &&
      (Expr.operatorOfToken k).isNone) = true := by decide +kernel
  have hk := List.all_eq_true.mp hends k hk
  simp only [Bool.and_eq_true, bne_iff_ne, Option.isNone_iff_eq_none] at hk
  obtain ⟨⟨⟨⟨⟨hp, ho⟩, hn⟩, hl⟩, hg⟩, hop⟩ := hk
  have hstops : Expr.Stops (k :: more) := by
    constructor <;> simpa
  have hnone : Expr.nextOperator (k :: more) = .ok none := by
    rw [Expr.nextOperator_single hn hl hg, hop]
    rfl
  exact ((Expr.readsBack h.readable h.noMerge).expr _ hstops hnone).isRead

theorem readBack_token (ks : List Token) (t : Token) :
    ReadBack (Reader.run Reader.token) (fun t => [t]) ks t :=
  fun _ _ => rfl

theorem run_aliased_bare {item : Reader α} {x : α} {ts : List Token}
    (h : Reader.run item ts = .ok (x, rest)) (hn : nextIsKeyword "AS" rest = false) :
    Reader.run (Reader.aliased item) ts = .ok (⟨x, none⟩, rest) := by
  obtain ⟨hlen, hi⟩ := Expr.run_eq_ok.mp h
  refine Expr.run_eq_ok.mpr ⟨hlen, ?_⟩
  rw [Reader.aliased, hi, except_ok_bind]
  dsimp only
  rw [hn]
  rfl

theorem run_aliased_named {item : Reader α} {x : α} {ts : List Token} {k name : Token}
    (h : Reader.run item ts = .ok (x, k :: name :: rest)) (hk : isKeyword "AS" k = true) :
    Reader.run (Reader.aliased item) ts = .ok (⟨x, some name⟩, rest) := by
  obtain ⟨hlen, hi⟩ := Expr.run_eq_ok.mp h
  have hrest : rest.length < ts.length := by
    simp only [List.length_cons] at hlen
    omega
  have hn : nextIsKeyword "AS" (k :: name :: rest) = true := by simpa [nextIsKeyword] using hk
  refine Expr.run_eq_ok.mpr ⟨hrest, ?_⟩
  rw [Reader.aliased, hi, except_ok_bind]
  dsimp only
  rw [if_pos hn]
  rfl

theorem run_commaList_last {item : Reader α} {x : α} {ts : List Token}
    (h : Reader.run item ts = .ok (x, rest)) (hn : rest.head? ≠ some ",") :
    Reader.run (Reader.commaList item) ts = .ok ([x], rest) := by
  obtain ⟨hlen, hi⟩ := Expr.run_eq_ok.mp h
  refine Expr.run_eq_ok.mpr ⟨hlen, ?_⟩
  rw [Reader.commaList, hi, except_ok_bind, if_neg hn]
  rfl

theorem run_commaList_more {item : Reader α} {x : α} {xs : List α} {ts mid : List Token}
    (h : Reader.run item ts = .ok (x, "," :: mid))
    (hm : Reader.run (Reader.commaList item) mid = .ok (xs, rest)) :
    Reader.run (Reader.commaList item) ts = .ok (x :: xs, rest) := by
  obtain ⟨hlen, hi⟩ := Expr.run_eq_ok.mp h
  obtain ⟨hrest, hm⟩ := Expr.run_eq_ok.mp hm
  have hmid : rest.length < ts.length := by
    simp only [List.length_cons] at hlen
    omega
  refine Expr.run_eq_ok.mpr ⟨hmid, ?_⟩
  rw [Reader.commaList, hi, except_ok_bind]
  dsimp only
  rw [List.head?_cons, if_pos rfl]
  show (Reader.commaList item mid >>= _) = _
  rw [hm]
  rfl

theorem run_sortKey_descending {e : Expr} {ts : List Token} {k : Token}
    (h : Reader.run Expr.readExpr ts = .ok (e, k :: rest)) (hk : isKeyword "DESC" k = true) :
    Reader.run SortKey.read ts = .ok (⟨e, false⟩, rest) := by
  obtain ⟨hlen, hi⟩ := Expr.run_eq_ok.mp h
  have hrest : rest.length < ts.length := by
    simp only [List.length_cons] at hlen
    omega
  have hn : nextIsKeyword "DESC" (k :: rest) = true := by simpa [nextIsKeyword] using hk
  refine Expr.run_eq_ok.mpr ⟨hrest, ?_⟩
  rw [SortKey.read, hi, except_ok_bind]
  dsimp only
  rw [if_pos hn]
  rfl

theorem run_sortKey_ascending {e : Expr} {ts : List Token}
    (h : Reader.run Expr.readExpr ts = .ok (e, rest)) (hd : nextIsKeyword "DESC" rest = false)
    (ha : nextIsKeyword "ASC" rest = false) :
    Reader.run SortKey.read ts = .ok (⟨e, true⟩, rest) := by
  obtain ⟨hlen, hi⟩ := Expr.run_eq_ok.mp h
  refine Expr.run_eq_ok.mpr ⟨hlen, ?_⟩
  rw [SortKey.read, hi, except_ok_bind]
  dsimp only
  rw [hd, ha]
  rfl

theorem readBack_aliased {item : Reader α} {a : Aliased α}
    (h : ReadBack (Reader.run item) toks ("AS" :: itemEnds) a.item) :
    ReadBack (Reader.run (Reader.aliased item)) (Aliased.tokens toks) itemEnds a := by
  intro rest hr
  obtain ⟨x, name⟩ := a
  cases name with
  | none =>
    exact run_aliased_bare (h rest (hr.mono (by decide)))
      (hr.nextIsKeyword_eq_false (by decide +kernel))
  | some name =>
    have hi := h ("AS" :: name :: rest) ⟨"AS", by simp, _, rfl⟩
    have := run_aliased_named hi (by decide +kernel)
    simpa [Aliased.tokens] using this

/-- The tokens of a sort key. -/
def SortKey.tokens (key : SortKey) : List Token :=
  if key.ascending then key.expr.spell else key.expr.spell ++ ["DESC"]

theorem readBack_sortKey {key : SortKey} (h : key.expr.WellFormed) :
    ReadBack (Reader.run SortKey.read) SortKey.tokens itemEnds key := by
  intro rest hr
  obtain ⟨e, ascending⟩ := key
  cases ascending with
  | true =>
    exact run_sortKey_ascending (readBack_expr h rest (hr.mono (by decide)))
      (hr.nextIsKeyword_eq_false (by decide +kernel))
      (hr.nextIsKeyword_eq_false (by decide +kernel))
  | false =>
    have he := readBack_expr h ("DESC" :: rest) ⟨"DESC", by simp [exprEnds], _, rfl⟩
    have := run_sortKey_descending he (by decide +kernel)
    simpa [SortKey.tokens] using this

theorem readBack_list {item : Reader α} {items : List α} (hne : items ≠ [])
    (h : ∀ a ∈ items, ReadBack (Reader.run item) toks itemEnds a) :
    ReadBack (Reader.run (Reader.commaList item)) (listTokens toks) clauseEnds items := by
  intro rest hr
  induction items with
  | nil => exact (hne rfl).elim
  | cons a more ih =>
    cases more with
    | nil =>
      obtain ⟨k, hk, ts, rfl⟩ := hr
      have hcomma : k ≠ "," := by
        rintro rfl
        exact absurd hk (by decide)
      exact run_commaList_last (h a (by simp) _ ⟨k, by simp [itemEnds, hk], ts, rfl⟩)
        (by simpa using hcomma)
    | cons b more =>
      have ih := ih (by simp) fun c hc => h c (by simp [hc])
      have ha := h a (by simp) ("," :: (listTokens toks (b :: more) ++ rest))
        ⟨",", by simp [itemEnds], _, rfl⟩
      have := run_commaList_more ha ih
      simpa [listTokens] using this

/-! ### Clauses -/

theorem begins_clause (keyword : Token) (more : List Token) (toks : α → List Token)
    (c : Option α) (h : Begins ks rest) :
    Begins (keyword :: ks) (clauseTokens (keyword :: more) toks c ++ rest) := by
  cases c with
  | none =>
    obtain ⟨k, hk, ts, rfl⟩ := h
    exact ⟨k, by simp [hk], ts, rfl⟩
  | some a => exact ⟨keyword, by simp, _, rfl⟩

/-- A clause is read if it is there, and skipped if not. -/
theorem readBack_clause (keyword : Token) (more : List Token)
    {body : List Token → Except SyntaxError (α × List Token)} {c : Option α}
    (hk : isKeyword keyword keyword = true)
    (hks : ks.all (fun k => !isKeyword keyword k) = true)
    (h : ∀ a, c = some a → ReadBack body (fun a => more ++ toks a) ks a) :
    ReadBack (clause keyword body) (clauseTokens (keyword :: more) toks) ks c := by
  intro rest hr
  cases c with
  | none =>
    rw [clauseTokens, List.nil_append, clause, hr.nextIsKeyword_eq_false hks]
    rfl
  | some a =>
    show clause keyword body (keyword :: (more ++ toks a ++ rest)) = _
    rw [clause_of_isKeyword hk, h a rfl rest hr]
    rfl

/-- A list behind the second word of its keyword. -/
theorem readBack_byList {failure : SyntaxError} {item : Reader α} {items : List α}
    (hne : items ≠ []) (h : ∀ a ∈ items, ReadBack (Reader.run item) toks itemEnds a) :
    ReadBack (byList failure item) (fun items => ["BY"] ++ listTokens toks items) clauseEnds
      items := by
  intro rest hr
  have hby : nextIsKeyword "BY" ("BY" :: (listTokens toks items ++ rest)) = true := by
    have : isKeyword "BY" "BY" = true := by decide +kernel
    simpa [nextIsKeyword] using this
  show byList failure item ("BY" :: (listTokens toks items ++ rest)) = _
  rw [byList, expectKeyword, if_pos hby]
  exact readBack_list hne h rest hr

/-- A clause that is one expression. -/
theorem readBack_exprClause (keyword : Token) {c : Option Expr}
    (h : ∀ e, c = some e → e.WellFormed) (hk : isKeyword keyword keyword = true)
    (hks : ks.all (fun k => !isKeyword keyword k) = true)
    (hends : ks.all exprEnds.contains = true) :
    ReadBack (clause keyword Expr.read) (clauseTokens [keyword] Expr.spell) ks c :=
  readBack_clause keyword [] hk hks fun e he => (readBack_expr (h e he)).mono hends

/-- A clause that is a list behind the second word of its keyword. -/
theorem readBack_byClause (keyword : Token) (failure : SyntaxError) {item : Reader α}
    {c : Option (List α)} (hne : ∀ items, c = some items → items ≠ [])
    (h : ∀ items, c = some items → ∀ a ∈ items, ReadBack (Reader.run item) toks itemEnds a)
    (hk : isKeyword keyword keyword = true)
    (hks : ks.all (fun k => !isKeyword keyword k) = true)
    (hends : ks.all clauseEnds.contains = true) :
    ReadBack (clause keyword (byList failure item))
      (clauseTokens [keyword, "BY"] (listTokens toks)) ks c :=
  readBack_clause keyword ["BY"] hk hks fun items hi =>
    (readBack_byList (hne items hi) (h items hi)).mono hends

end Reading

end QueryTrace

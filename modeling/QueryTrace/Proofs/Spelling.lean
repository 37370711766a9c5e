/-
The tokens of printed expressions.

`Expr.spell` is the list of tokens that an expression is meant to be written with.  The scanner
finds exactly these tokens in the printed text, and the readers make the expression from them
again, under conditions on the expression that are stated here.

* `Readable` — all parts of the expression are spelled so that each can be read by itself;
* `Expr.NoMerge` — no operator runs together with the name behind it;
* `QuotesHarmless` — no name is a quote that would swallow text behind it;
* `tokensOf_print` — the tokens of the printed text are those of `Expr.spell`;
* `readsBack` — these tokens are read as the expression.

Design notes: the text behind an expression matters, since a quote takes it for its content.
`QuotesHarmless` therefore counts the closing parentheses between the expression and the end of the
text.
-/
import QueryTrace.Expr.Printer
import QueryTrace.Proofs.Operators
import QueryTrace.Proofs.Scanning

namespace QueryTrace

open Token

/-- The tokens that the operator is written with. -/
def BinOp.tokens : BinOp → List Token
  | ne => ["!", "="]
  | ge => [">", "="]
  | le => ["<", "="]
  | op => [op.symbol]

namespace Expr

/-! ### Spelling -/

/-- The tokens between parentheses if asked for. -/
def encloseIf (needed : Bool) (ts : List Token) : List Token :=
  if needed then "(" :: ts ++ [")"] else ts

/-- The tokens that the expression is written with. -/
def spell : Expr → List Token
  | number raw => scan raw
  | text content => [quoteFor content, content, quoteFor content]
  | column name => [name]
  | qualified table name => [table, ".", name]
  | aggregate function argument => function :: "(" :: argument.spell ++ [")"]
  | binary op l r =>
    encloseIf l.isOperation l.spell ++ op.tokens ++ encloseIf r.isOperation r.spell

/-- A number has digits, or digits around one point. -/
def IsNumber (raw : String) : Prop :=
  Text.isNumeral raw = true ∨ ∃ whole fraction, Text.isNumeral whole = true ∧
    Text.isNumeral fraction = true ∧ raw = whole ++ "." ++ fraction

/-- Can all parts of the expression be read by themselves? -/
def Readable : Expr → Prop
  | number raw => IsNumber raw
  | text content => '"' ∉ content.toList ∨ '\'' ∉ content.toList
  | column name => IsName name ∧ name ≠ "(" ∧ Text.isNumeral name = false
  | qualified table name => IsName table ∧ table ≠ "(" ∧
    (IsName name ∨ isQuote name = true) ∧
    (Text.isNumeral table && Text.isNumeral name) = false
  | aggregate function argument => IsName function ∧ function ≠ "(" ∧ argument.Readable
  | binary _ l r => l.Readable ∧ r.Readable

/-- The name that the text of the expression begins with, if it begins with one. -/
def leadingName : Expr → Option Token
  | column name => some name
  | qualified table _ => some table
  | aggregate function _ => some function
  | _ => none

/-- Would the operator be read together with the name behind it? -/
def Merges (op : BinOp) (right : Expr) : Prop :=
  op = .lt ∧ (right.leadingName = some "=" ∨ right.leadingName = some ">") ∨
    op = .gt ∧ right.leadingName = some "="

/-- Does no operator run together with the name behind it? -/
def NoMerge : Expr → Prop
  | aggregate _ argument => argument.NoMerge
  | binary op l r => l.NoMerge ∧ r.NoMerge ∧ ¬ Merges op r
  | _ => True

/-- Does no name swallow the text behind it?  A name that is a quote does, unless all that follows
is one closing parenthesis.  `behind` is the number of closing parentheses from the expression to
the end of the text, or `none` if other text follows it. -/
def QuotesHarmless (behind : Option Nat) : Expr → Prop
  | qualified _ name => isQuote name = true → behind = some 1
  | aggregate _ argument => argument.QuotesHarmless (behind.map (· + 1))
  | binary _ l r => l.QuotesHarmless none ∧
    r.QuotesHarmless (if r.isOperation then behind.map (· + 1) else behind)
  | _ => True

/-! ### The tokens of the printed text -/

/-- Is the text what stands behind the expression? -/
def Behind : Option Nat → List Char → Prop
  | some n, cs => cs = List.replicate n ')'
  | none, cs => Breaks cs

theorem Behind.breaks {behind : Option Nat} {cs : List Char} (h : Behind behind cs) :
    Breaks cs := by
  cases behind with
  | none => exact h
  | some n =>
    rw [Behind] at h
    subst h
    cases n with
    | zero => exact breaks_nil
    | succ n => exact breaks_cons (by decide) _

theorem Behind.close {behind : Option Nat} {cs : List Char} (h : Behind behind cs) :
    Behind (behind.map (· + 1)) (')' :: cs) := by
  cases behind with
  | none => exact breaks_cons (by decide) cs
  | some n =>
    rw [Behind] at h
    subst h
    rfl

theorem print_qualified_append (table name : Token) (cs : List Char) :
    (qualified table name).print.toList ++ cs = table.toList ++ '.' :: (name.toList ++ cs) := by
  simp [print]

theorem print_aggregate_append (f : Token) (a : Expr) (cs : List Char) :
    (aggregate f a).print.toList ++ cs = f.toList ++ '(' :: (a.print.toList ++ ')' :: cs) := by
  simp [print]

theorem print_binary_append (op : BinOp) (l r : Expr) (cs : List Char) :
    (binary op l r).print.toList ++ cs =
      (parenthesizeIf l.isOperation l.print).toList ++ ' ' :: (op.symbol.toList ++
        ' ' :: ((parenthesizeIf r.isOperation r.print).toList ++ cs)) := by
  simp [print]

theorem parenthesizeIf_append (text : String) (cs : List Char) :
    (parenthesizeIf true text).toList ++ cs = '(' :: (text.toList ++ ')' :: cs) := by
  simp [parenthesizeIf]

theorem tokensOf_symbol (op : BinOp) (cs : List Char) :
    tokensOf (op.symbol.toList ++ ' ' :: cs) = op.tokens ++ tokensOf cs := by
  have hspace : Breaks (' ' :: cs) := breaks_cons (by decide) cs
  have hword : ∀ t : Token, t.toList ≠ [] → t.toList.all isWordChar = true →
      tokensOf (t.toList ++ ' ' :: cs) = t :: tokensOf cs := by
    intro t hne hall
    rw [tokensOf_word ⟨hne, List.all_eq_true.mp hall⟩ hspace, tokensOf_space]
  have hmark : ∀ c, marks.contains c = true →
      tokensOf (c :: ' ' :: cs) = c.toString :: tokensOf cs := by
    intro c hc
    rw [tokensOf_mark hc, tokensOf_space]
  have htwo : ∀ c, marks.contains c = true →
      tokensOf (c :: '=' :: ' ' :: cs) = c.toString :: "=" :: tokensOf cs := by
    intro c hc
    rw [tokensOf_mark hc, hmark '=' (by decide)]
    rfl
  cases op with
  | or => exact hword "OR" (by decide) (by decide)
  | and => exact hword "AND" (by decide) (by decide)
  | ne => exact htwo '!' (by decide)
  | ge => exact htwo '>' (by decide)
  | le => exact htwo '<' (by decide)
  | eq => exact hmark '=' (by decide)
  | gt => exact hmark '>' (by decide)
  | lt => exact hmark '<' (by decide)
  | add => exact hmark '+' (by decide)
  | sub => exact hmark '-' (by decide)
  | mul => exact hmark '*' (by decide)
  | div => exact hmark '/' (by decide)

theorem isWord_of_isNumeral {t : Token} (h : Text.isNumeral t = true) : IsWord t := by
  rw [Text.isNumeral, Bool.and_eq_true, List.all_eq_true] at h
  exact ⟨by simpa using h.1, fun c hc => isWordChar_of_isDecimalDigit (h.2 c hc)⟩

theorem tokensOf_point {whole fraction : String} (hw : Text.isNumeral whole = true)
    (hf : Text.isNumeral fraction = true) {cs : List Char} (hb : Breaks cs) :
    tokensOf ((whole ++ "." ++ fraction).toList ++ cs) =
      whole :: "." :: fraction :: tokensOf cs := by
  have hchars : (whole ++ "." ++ fraction).toList ++ cs =
      whole.toList ++ '.' :: (fraction.toList ++ cs) := by simp
  rw [hchars, tokensOf_word (isWord_of_isNumeral hw) (breaks_cons (by decide) _),
    tokensOf_mark (by decide), tokensOf_word (isWord_of_isNumeral hf) hb]
  rfl

theorem scan_numeral {t : Token} (h : Text.isNumeral t = true) : scan t = [t] := by
  have := tokensOf_word (isWord_of_isNumeral h) breaks_nil
  rwa [List.append_nil, tokensOf_nil] at this

theorem scan_point {whole fraction : String} (hw : Text.isNumeral whole = true)
    (hf : Text.isNumeral fraction = true) :
    scan (whole ++ "." ++ fraction) = [whole, ".", fraction] := by
  have := tokensOf_point hw hf breaks_nil
  rwa [List.append_nil, tokensOf_nil] at this

theorem tokensOf_number {raw : String} (h : IsNumber raw) {cs : List Char} (hb : Breaks cs) :
    tokensOf (raw.toList ++ cs) = scan raw ++ tokensOf cs := by
  rcases h with h | ⟨whole, fraction, hw, hf, rfl⟩
  · rw [scan_numeral h]
    exact tokensOf_word (isWord_of_isNumeral h) hb
  · rw [scan_point hw hf]
    exact tokensOf_point hw hf hb

theorem quoteFor_eq (content : String) :
    ∃ q, quotes.contains q = true ∧ quoteFor content = q.toString ∧
      (('"' ∉ content.toList ∨ '\'' ∉ content.toList) → q ∉ content.toList) := by
  unfold quoteFor
  by_cases h : content.toList.contains '"' = true
  · rw [if_pos h]
    refine ⟨'\'', by decide, rfl, fun hor => ?_⟩
    rcases hor with hd | hs
    · exact (hd (by simpa using h)).elim
    · exact hs
  · rw [if_neg h]
    exact ⟨'"', by decide, rfl, fun _ => by simpa using h⟩

theorem tokensOf_text {content : String}
    (h : '"' ∉ content.toList ∨ '\'' ∉ content.toList) (cs : List Char) :
    tokensOf ((text content).print.toList ++ cs) = (text content).spell ++ tokensOf cs := by
  obtain ⟨q, hq, he, hmem⟩ := quoteFor_eq content
  have hchars : (text content).print.toList ++ cs =
      q :: content.toList ++ q :: cs := by
    simp [print, he]
  rw [hchars, tokensOf_quoted hq (hmem h), spell, he, String.ofList_toList]
  rfl

/-- A quote behind a point takes the closing parenthesis for its content, and is then read with it
as before. -/
theorem tokensOf_qualified {table name : Token} (ht : IsName table)
    (hn : IsName name ∨ isQuote name = true) {behind : Option Nat} {cs : List Char}
    (hb : Behind behind cs) (hq : isQuote name = true → behind = some 1) :
    tokensOf ((qualified table name).print.toList ++ cs) =
      (qualified table name).spell ++ tokensOf cs := by
  have hname : tokensOf (name.toList ++ cs) = name :: tokensOf cs := by
    rcases hn with hn | hn
    · exact tokensOf_name hn hb.breaks
    · rw [hq hn, Behind] at hb
      obtain ⟨q, hc, rfl⟩ := isQuote_iff.mp hn
      -- the text ends with one closing parenthesis, which the quote takes for its content
      have hne : q ≠ ')' := by
        rintro rfl
        exact absurd hc (by decide)
      subst hb
      rw [show q.toString.toList ++ List.replicate 1 ')' = q :: [')'] by simp,
        tokensOf_quote hc, if_neg (by simpa using hne)]
      show _ = _ :: tokensOf [')']
      rw [tokensOf_mark (by decide), tokensOf_nil]
      rfl
  rw [print_qualified_append, tokensOf_name_mark ht (by decide), hname]
  rfl

/-- The tokens of an operand, which stands in parentheses if it is an operation. -/
theorem tokensOf_operand {e : Expr} {behind : Option Nat} {cs : List Char}
    (ih : ∀ {behind : Option Nat} {cs : List Char}, Behind behind cs →
      e.QuotesHarmless behind → tokensOf (e.print.toList ++ cs) = e.spell ++ tokensOf cs)
    (hb : Behind behind cs)
    (hq : e.QuotesHarmless (if e.isOperation then behind.map (· + 1) else behind)) :
    tokensOf ((parenthesizeIf e.isOperation e.print).toList ++ cs) =
      encloseIf e.isOperation e.spell ++ tokensOf cs := by
  cases ho : e.isOperation with
  | false =>
    rw [ho] at hq
    exact ih hb hq
  | true =>
    rw [ho] at hq
    rw [parenthesizeIf_append, tokensOf_mark (by decide), ih hb.close hq,
      tokensOf_mark (by decide)]
    simp [encloseIf]

/-- The printed text has the tokens that the expression is spelled with. -/
theorem tokensOf_print {e : Expr} (hr : e.Readable) {behind : Option Nat} {cs : List Char}
    (hb : Behind behind cs) (hq : e.QuotesHarmless behind) :
    tokensOf (e.print.toList ++ cs) = e.spell ++ tokensOf cs := by
  induction e generalizing behind cs with
  | number raw => exact tokensOf_number hr hb.breaks
  | text content => exact tokensOf_text hr cs
  | column name => exact tokensOf_name hr.1 hb.breaks
  | qualified table name => exact tokensOf_qualified hr.1 hr.2.2.1 hb hq
  | aggregate f a ih =>
    rw [print_aggregate_append, tokensOf_name_mark hr.1 (by decide), ih hr.2.2 hb.close hq,
      tokensOf_mark (by decide)]
    simp [spell]
  | binary op l r ihl ihr =>
    -- a blank stands behind the left operand, so no quote in it can be at the end of the text
    have hl : l.QuotesHarmless
        (if l.isOperation then (none : Option Nat).map (· + 1) else none) := by
      simpa using hq.1
    have hbl : ∀ ds, Behind none (' ' :: ds) := breaks_cons (by decide)
    rw [print_binary_append, tokensOf_operand (ihl hr.1) (hbl _) hl, tokensOf_space,
      tokensOf_symbol, tokensOf_operand (ihr hr.2) hb hq.2]
    simp [spell]

/-! ### Reading the tokens -/

/-- Does a name end in front of the tokens? -/
def Stops (ts : List Token) : Prop :=
  ts.head? ≠ some "." ∧ ts.head? ≠ some "("

theorem run_readName_point (table name : Token) (rest : List Token) :
    Reader.run readName (table :: "." :: name :: rest) =
      .ok (if Text.isNumeral table && Text.isNumeral name then .number (table ++ "." ++ name)
        else .qualified table name, rest) := by
  rw [Reader.run, readName]
  split <;> rfl

theorem run_readName_alone (first : Token) {rest : List Token} (h : rest.head? ≠ some ".") :
    Reader.run readName (first :: rest) =
      .ok (if Text.isNumeral first then .number first else .column first, rest) := by
  rw [Reader.run, readName]
  · rfl
  · rintro rfl
    exact h rfl
  · rintro second rest' rfl
    exact h rfl

theorem nextOperator_close (ts : List Token) : nextOperator (")" :: ts) = .ok none := by
  have h : operatorOfToken ")" = none := by decide +kernel
  rw [nextOperator_single (by decide) (by decide) (by decide), h]
  rfl

/-- An operator is read from its tokens, unless the token behind it makes it another operator. -/
theorem nextOperator_tokens {op : BinOp} {ts : List Token}
    (hl : op = .lt → ts.head? ≠ some "=" ∧ ts.head? ≠ some ">")
    (hg : op = .gt → ts.head? ≠ some "=") :
    nextOperator (op.tokens ++ ts) = .ok (some (op, ts)) := by
  have hone : ∀ t : Token, t ≠ "!" → t ≠ "<" → t ≠ ">" → operatorOfToken t = some op →
      nextOperator (t :: ts) = .ok (some (op, ts)) := by
    intro t hn hl hg ht
    rw [nextOperator_single hn hl hg, ht]
    rfl
  cases op with
  | ne => rfl
  | ge => rfl
  | le => rfl
  | lt => exact nextOperator_lt (hl rfl).1 (hl rfl).2
  | gt => exact nextOperator_gt (hg rfl)
  | or => exact hone "OR" (by decide) (by decide) (by decide) (by decide +kernel)
  | and => exact hone "AND" (by decide) (by decide) (by decide) (by decide +kernel)
  | eq => exact hone "=" (by decide) (by decide) (by decide) (by decide +kernel)
  | add => exact hone "+" (by decide) (by decide) (by decide) (by decide +kernel)
  | sub => exact hone "-" (by decide) (by decide) (by decide) (by decide +kernel)
  | mul => exact hone "*" (by decide) (by decide) (by decide) (by decide +kernel)
  | div => exact hone "/" (by decide) (by decide) (by decide) (by decide +kernel)

theorem stops_tokens (op : BinOp) (ts : List Token) : Stops (op.tokens ++ ts) := by
  cases op <;> simp [Stops, BinOp.tokens, BinOp.symbol]

theorem stops_close (ts : List Token) : Stops (")" :: ts) := by
  simp [Stops]

/-- The first token of an operand is half an operator only if it is a name. -/
theorem leadingName_of_head {e : Expr} (hr : e.Readable) {t : Token} (ht : t = "=" ∨ t = ">")
    {rest : List Token} (h : (encloseIf e.isOperation e.spell ++ rest).head? = some t) :
    e.leadingName = some t := by
  cases e with
  | number raw =>
    have hn : Text.isNumeral t = false := by
      rcases ht with rfl | rfl <;> decide
    rcases hr with hraw | ⟨whole, fraction, hw, hf, rfl⟩
    · have h : (scan raw ++ rest).head? = some t := h
      rw [scan_numeral hraw] at h
      cases h
      rw [hraw] at hn
      cases hn
    · have h : (scan (whole ++ "." ++ fraction) ++ rest).head? = some t := h
      rw [scan_point hw hf] at h
      cases h
      rw [hw] at hn
      cases hn
  | text content =>
    obtain ⟨q, hq, he, -⟩ := quoteFor_eq content
    have h : some (quoteFor content) = some t := h
    rw [he] at h
    cases h
    have hqt := isQuote_iff.mpr ⟨q, hq, rfl⟩
    rcases ht with ht | ht <;> rw [ht] at hqt <;> exact absurd hqt (by decide)
  | column name => exact h
  | qualified table name => exact h
  | aggregate f a => exact h
  | binary op l r =>
    have h : some "(" = some t := h
    cases h
    rcases ht with ht | ht <;> exact absurd ht (by decide)

theorem nextOperator_operand {op : BinOp} {e : Expr} (hr : e.Readable) (hm : ¬ Merges op e)
    (rest : List Token) :
    nextOperator (op.tokens ++ (encloseIf e.isOperation e.spell ++ rest)) =
      .ok (some (op, encloseIf e.isOperation e.spell ++ rest)) := by
  refine nextOperator_tokens (fun ho => ⟨fun h => ?_, fun h => ?_⟩) fun ho h => ?_
  · exact hm (.inl ⟨ho, .inl (leadingName_of_head hr (.inl rfl) h)⟩)
  · exact hm (.inl ⟨ho, .inr (leadingName_of_head hr (.inr rfl) h)⟩)
  · exact hm (.inr ⟨ho, leadingName_of_head hr (.inl rfl) h⟩)

theorem ofChain_pair (op : BinOp) (l r : Expr) : ofChain l [(op, r)] = binary op l r := by
  have h : splitLoosest [(op, r)] = some (op, [], r, []) := by
    cases op <;> rfl
  rw [ofChain_eq h, ofChain_nil, ofChain_nil]

theorem Reads.expr_of_operand {e : Expr} {ts rest : List Token} (h : Reads (.operand e) ts rest)
    (hn : nextOperator rest = .ok none) : Reads (.expr e) ts rest := by
  have he := Reads.expr (.last h hn)
  rwa [ofChain_nil] at he

/-- What has to hold of the tokens behind an operand or an expression for it to be read. -/
structure ReadsBack (e : Expr) : Prop where
  operand : ∀ rest, Stops rest →
    Reads (.operand e) (encloseIf e.isOperation e.spell ++ rest) rest
  expr : ∀ rest, Stops rest → nextOperator rest = .ok none →
    Reads (.expr e) (e.spell ++ rest) rest

theorem readsBack_of_operand {e : Expr} (ho : e.isOperation = false)
    (h : ∀ rest, Stops rest → Reads (.operand e) (e.spell ++ rest) rest) : ReadsBack e := by
  refine ⟨fun rest hs => ?_, fun rest hs hn => (h rest hs).expr_of_operand hn⟩
  rw [ho]
  exact h rest hs

theorem readsBack_of_name {e : Expr} (ho : e.isOperation = false) {first : Token}
    {more : List Token} (he : e.spell = first :: more) (hn : IsName first) (hp : first ≠ "(")
    (h : ∀ rest, Stops rest → (more ++ rest).head? ≠ some "(" ∧
      Reader.run readName (first :: (more ++ rest)) = .ok (e, rest)) : ReadsBack e := by
  refine readsBack_of_operand ho fun rest hs => ?_
  rw [he]
  exact .name hp hn.isQuote_eq_false (h rest hs).1 (h rest hs).2

theorem readsBack_number {raw : String} (h : IsNumber raw) : ReadsBack (number raw) := by
  have hp : ∀ {t : Token}, Text.isNumeral t = true → t ≠ "(" := by
    rintro t ht rfl
    exact absurd ht (by decide)
  rcases h with h | ⟨whole, fraction, hw, hf, rfl⟩
  · refine readsBack_of_name rfl (scan_numeral h) (.inl (isWord_of_isNumeral h)) (hp h)
      fun rest hs => ⟨hs.2, ?_⟩
    rw [List.nil_append, run_readName_alone raw hs.1, if_pos h]
  · refine readsBack_of_name rfl (scan_point hw hf) (.inl (isWord_of_isNumeral hw)) (hp hw)
      fun rest hs => ⟨by simp, ?_⟩
    show Reader.run readName (whole :: "." :: fraction :: rest) = _
    rw [run_readName_point, hw, hf]
    rfl

/-- The tokens of an expression are read as the expression. -/
theorem readsBack {e : Expr} (hr : e.Readable) (hm : e.NoMerge) : ReadsBack e := by
  induction e with
  | number raw => exact readsBack_number hr
  | text content =>
    obtain ⟨q, hq, he, -⟩ := quoteFor_eq content
    refine readsBack_of_operand rfl fun rest _ => .quoted ?_
    exact isQuote_iff.mpr ⟨q, hq, he⟩
  | column name =>
    obtain ⟨hn, hp, hd⟩ := hr
    refine readsBack_of_name rfl rfl hn hp fun rest hs => ⟨hs.2, ?_⟩
    rw [List.nil_append, run_readName_alone name hs.1, hd]
    rfl
  | qualified table name =>
    obtain ⟨ht, hp, -, hd⟩ := hr
    refine readsBack_of_name rfl rfl ht hp fun rest hs => ⟨by simp, ?_⟩
    show Reader.run readName (table :: "." :: name :: rest) = _
    rw [run_readName_point, hd]
    rfl
  | aggregate f a ih =>
    obtain ⟨hf, hp, ha⟩ := hr
    refine readsBack_of_operand rfl fun rest _ => ?_
    have ha := (ih ha hm).expr (")" :: rest) (stops_close rest) (nextOperator_close rest)
    have := Reads.call hp hf.isQuote_eq_false ha
    simpa [spell] using this
  | binary op l r ihl ihr =>
    obtain ⟨hrl, hrr⟩ := hr
    obtain ⟨hml, hmr, hmo⟩ := hm
    have hexpr : ∀ rest, Stops rest → nextOperator rest = .ok none →
        Reads (.expr (binary op l r)) ((binary op l r).spell ++ rest) rest := by
      intro rest hs hn
      have hop := nextOperator_operand hrr hmo rest
      have hl := (ihl hrl hml).operand _ (stops_tokens op (encloseIf r.isOperation r.spell ++ rest))
      have hchain := Reads.more hl hop (.last ((ihr hrr hmr).operand rest hs) hn)
      have he := Reads.expr hchain
      rw [ofChain_pair] at he
      simpa [spell] using he
    -- as an operand the operation stands between parentheses, so nothing behind it matters
    refine ⟨fun rest hs => ?_, hexpr⟩
    have := Reads.paren (hexpr (")" :: rest) (stops_close rest) (nextOperator_close rest))
    simpa [encloseIf, isOperation] using this

end Expr

end QueryTrace

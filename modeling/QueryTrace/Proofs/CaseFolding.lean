/-
Capital and small letters.

A text in small letters is parsed like the text itself: the same statement, with small letters in
its names and contents, or the same error.

* `lower` — small letters for capital ones, in a text and in everything that is read from it;
* **`lexemes_lower`** — a text falls apart at the same places;
* `FoldsCase` — a reader returns the same on tokens in small letters, as
  **`Expr.foldsCase_readExpr`** and **`Statement.foldsCase_read`** say;
* **`parse_lower`** — so does parsing, of statements and of expressions.

Design notes: keywords and operators are compared in capital letters, and everything else that the
readers compare with has no letters in it.  Errors are to be the same too, so the readers are
described here by equations and not by what they return when they succeed.
-/
import QueryTrace.Proofs.Parsed
import QueryTrace.Proofs.ReaderEquations

namespace QueryTrace

open Token

/-! ### Small letters -/

/-- Things with letters in them. -/
class CaseFold (α : Type) where
  /-- The same with small letters for the capital ones of ASCII. -/
  lower : α → α

export CaseFold (lower)

section Instances

variable {α β : Type} [CaseFold α] [CaseFold β]

instance : CaseFold Char := ⟨Char.toLower⟩

instance : CaseFold Token := ⟨String.toLower⟩

instance : CaseFold BinOp := ⟨id⟩

instance : CaseFold (List α) := ⟨List.map lower⟩

instance : CaseFold (Option α) := ⟨Option.map lower⟩

instance : CaseFold (α × β) := ⟨Prod.map lower lower⟩

instance : CaseFold (Aliased α) := ⟨fun a => ⟨lower a.item, lower a.name?⟩⟩

end Instances

/-- The expression in small letters.  A number has no letters. -/
protected def Expr.lower : Expr → Expr
  | number raw => number raw
  | text content => text content.toLower
  | column name => column name.toLower
  | qualified table name => qualified table.toLower name.toLower
  | aggregate function argument => aggregate function.toLower argument.lower
  | binary op l r => binary op l.lower r.lower

instance : CaseFold Expr := ⟨Expr.lower⟩

instance : CaseFold SortKey := ⟨fun k => ⟨lower k.expr, k.ascending⟩⟩

instance : CaseFold Select where
  lower q := ⟨lower q.columns, lower q.tables, lower q.filter, lower q.groupBy, lower q.having,
    lower q.orderBy, lower q.limit⟩

instance : CaseFold Statement where
  lower
    | .query q => .query (lower q)
    | .create table q => .create (lower table) (lower q)

/-- Only one error names a token. -/
instance : CaseFold SyntaxError where
  lower
    | .trailing t => .trailing (lower t)
    | e => e

instance : CaseFold Lexeme where
  lower
    | .blank c => .blank (lower c)
    | .mark c => .mark (lower c)
    | .word cs => .word (lower cs)
    | .quoted q content => .quoted (lower q) (lower content)
    | .unclosed q content => .unclosed (lower q) (lower content)

/-! ### Characters -/

/-- Only the twenty-six capital letters are changed. -/
theorem lower_eq_or (c : Char) :
    lower c = c ∨ ∃ n < 26, c = Char.ofNat (65 + n) ∧ lower c = Char.ofNat (97 + n) := by
  by_cases h : 'A'.val ≤ c.val ∧ c.val ≤ 'Z'.val
  · have h1 : 65 ≤ c.toNat := UInt32.le_iff_toNat_le.mp h.1
    have h2 : c.toNat ≤ 90 := UInt32.le_iff_toNat_le.mp h.2
    obtain ⟨n, hn⟩ := Nat.exists_eq_add_of_le h1
    have hc : c = Char.ofNat (65 + n) := by rw [← hn, Char.ofNat_toNat]
    have hn : n < 26 := by omega
    have hlower : ∀ n < 26, (Char.ofNat (65 + n)).toLower = Char.ofNat (97 + n) := by decide
    exact .inr ⟨n, hn, hc, hc ▸ hlower n hn⟩
  · exact .inl (dif_neg h)

/-- What does not tell capital letters from small ones does not see the change. -/
theorem apply_lower {β : Type} (f : Char → β)
    (h : ∀ n < 26, f (Char.ofNat (97 + n)) = f (Char.ofNat (65 + n))) (c : Char) :
    f (lower c) = f c := by
  rcases lower_eq_or c with hc | ⟨n, hn, hc, hl⟩
  · rw [hc]
  · rw [hl, hc, h n hn]

theorem isBlank_lower (c : Char) : Text.isBlank (lower c) = Text.isBlank c :=
  apply_lower _ (by decide) c

theorem isDecimalDigit_lower (c : Char) : Text.isDecimalDigit (lower c) = Text.isDecimalDigit c :=
  apply_lower _ (by decide) c

theorem isWordChar_lower (c : Char) : isWordChar (lower c) = isWordChar c :=
  apply_lower _ (by decide) c

theorem marks_contains_lower (c : Char) : marks.contains (lower c) = marks.contains c :=
  apply_lower _ (by decide) c

theorem toUpper_lower (c : Char) : (lower c).toUpper = c.toUpper :=
  apply_lower _ (by decide) c

/-- Letters go into words, so no other character is changed, and none comes of a change. -/
theorem lower_eq_iff {c m : Char} (hm : isWordChar m = false) : lower c = m ↔ c = m := by
  rcases lower_eq_or c with hc | ⟨n, hn, rfl, hl⟩
  · rw [hc]
  · have hword : ∀ n < 26, isWordChar (Char.ofNat (65 + n)) = true ∧
        isWordChar (Char.ofNat (97 + n)) = true := by decide
    constructor
    · rintro rfl
      rw [hl, (hword n hn).2] at hm
      cases hm
    · rintro rfl
      rw [(hword n hn).1] at hm
      cases hm

theorem lower_of_isDecimalDigit {c : Char} (h : Text.isDecimalDigit c = true) : lower c = c := by
  rcases lower_eq_or c with hc | ⟨n, hn, rfl, -⟩
  · exact hc
  · have hno : ∀ n < 26, Text.isDecimalDigit (Char.ofNat (65 + n)) = false := by decide
    rw [hno n hn] at h
    cases h

/-! ### Tokens -/

section Tokens

variable {t m : Token} {ts : List Token}

theorem toList_lower (t : Token) : (lower t).toList = lower t.toList :=
  String.toList_map

theorem ofList_lower (cs : List Char) : String.ofList (lower cs) = lower (String.ofList cs) := by
  rw [← String.toList_inj, toList_lower, String.toList_ofList, String.toList_ofList]

theorem lower_cs_eq_iff {cs ms : List Char} (hm : ms.all (!isWordChar ·) = true) :
    lower cs = ms ↔ cs = ms := by
  induction ms generalizing cs with
  | nil => exact List.map_eq_nil_iff
  | cons m ms ih =>
    rw [List.all_cons, Bool.and_eq_true, Bool.not_eq_true'] at hm
    cases cs with
    | nil =>
      constructor
      · rintro ⟨⟩
      · rintro ⟨⟩
    | cons c cs =>
      show lower c :: lower cs = m :: ms ↔ _
      rw [List.cons.injEq, List.cons.injEq, lower_eq_iff hm.1, ih hm.2]

/-- A token without letters is itself in small letters, and nothing else becomes that token. -/
theorem lower_token_eq_iff (hm : m.toList.all (!isWordChar ·) = true) : lower t = m ↔ t = m := by
  rw [← String.toList_inj, toList_lower, lower_cs_eq_iff hm, String.toList_inj]

theorem lower_token_of_mark (hm : m.toList.all (!isWordChar ·) = true) : lower m = m :=
  (lower_token_eq_iff hm).mpr rfl

theorem head?_lower (hm : m.toList.all (!isWordChar ·) = true) :
    (lower ts).head? = some m ↔ ts.head? = some m := by
  cases ts with
  | nil => exact Iff.rfl
  | cons t ts =>
    show some (lower t) = some m ↔ some t = some m
    rw [Option.some_inj, Option.some_inj, lower_token_eq_iff hm]

theorem isQuote_lower (t : Token) : isQuote (lower t) = isQuote t := by
  rw [Bool.eq_iff_iff, isQuote, isQuote, Bool.or_eq_true, Bool.or_eq_true, beq_iff_eq, beq_iff_eq,
    beq_iff_eq, beq_iff_eq, lower_token_eq_iff (by decide), lower_token_eq_iff (by decide)]

theorem letterless_of_isQuote (h : isQuote t = true) : t.toList.all (!isWordChar ·) = true := by
  rw [isQuote, Bool.or_eq_true, beq_iff_eq, beq_iff_eq] at h
  rcases h with rfl | rfl <;> decide

theorem token_toUpper_lower (t : Token) : (lower t).toUpper = t.toUpper := by
  rw [← String.toList_inj]
  show (String.map Char.toUpper (lower t)).toList = (String.map Char.toUpper t).toList
  rw [String.toList_map, String.toList_map, toList_lower]
  show (t.toList.map lower).map Char.toUpper = _
  rw [List.map_map]
  exact List.map_congr_left fun c _ => toUpper_lower c

theorem isKeyword_lower (keyword : String) (t : Token) :
    isKeyword keyword (lower t) = isKeyword keyword t := by
  rw [isKeyword, isKeyword, token_toUpper_lower]

theorem nextIsKeyword_lower (keyword : String) (ts : List Token) :
    nextIsKeyword keyword (lower ts) = nextIsKeyword keyword ts := by
  cases ts with
  | nil => rfl
  | cons t ts => exact isKeyword_lower keyword t

theorem operatorOfToken_lower (t : Token) :
    Expr.operatorOfToken (lower t) = Expr.operatorOfToken t := by
  unfold Expr.operatorOfToken
  rw [token_toUpper_lower]

theorem isNumeral_lower (t : Token) : Text.isNumeral (lower t) = Text.isNumeral t := by
  unfold Text.isNumeral
  rw [toList_lower]
  show (!(t.toList.map lower).isEmpty && (t.toList.map lower).all Text.isDecimalDigit) = _
  rw [List.isEmpty_map, List.all_map]
  congr 2
  exact funext isDecimalDigit_lower

theorem lower_of_isNumeral (h : Text.isNumeral t = true) : lower t = t := by
  rw [Text.isNumeral, Bool.and_eq_true] at h
  rw [← String.toList_inj, toList_lower]
  refine (List.map_congr_left fun c hc => ?_).trans (List.map_id _)
  exact lower_of_isDecimalDigit (List.all_eq_true.mp h.2 c hc)

end Tokens

/-! ### Lexemes -/

theorem lexeme_tokens_lower (x : Lexeme) : (lower x).tokens = lower x.tokens := by
  have hchar : ∀ c : Char, (lower c).toString = lower c.toString := by
    intro c
    rw [← String.toList_inj, toList_lower, Char.toString_eq_singleton, Char.toString_eq_singleton,
      String.toList_singleton, String.toList_singleton]
    rfl
  cases x with
  | blank c => rfl
  | mark c => exact congrArg (fun t => [t]) (hchar c)
  | word cs => exact congrArg (fun t => [t]) (ofList_lower cs)
  | quoted q content =>
    show [(lower q).toString, String.ofList (lower content), (lower q).toString] = _
    rw [hchar, ofList_lower]
    rfl
  | unclosed q content =>
    show [(lower q).toString, String.ofList (lower content)] = _
    rw [hchar, ofList_lower]
    rfl

theorem takeWhile_lower {p : Char → Bool} (hp : ∀ c, p (lower c) = p c) (cs : List Char) :
    (lower cs).takeWhile p = lower (cs.takeWhile p) := by
  have hcomp : p ∘ lower = p := funext hp
  exact List.takeWhile_map.trans (by rw [hcomp]; rfl)

theorem dropWhile_lower {p : Char → Bool} (hp : ∀ c, p (lower c) = p c) (cs : List Char) :
    (lower cs).dropWhile p = lower (cs.dropWhile p) := by
  have hcomp : p ∘ lower = p := funext hp
  exact List.dropWhile_map.trans (by rw [hcomp]; rfl)

/-- Where a quote ends does not change. -/
theorem lower_bne_quote {q : Char} (hq : quotes.contains q = true) (c : Char) :
    (lower c != q) = (c != q) := by
  rw [Bool.eq_iff_iff, bne_iff_ne, bne_iff_ne, ne_eq, ne_eq,
    lower_eq_iff (isWordChar_of_quote hq)]

theorem contains_lower {q : Char} (hq : quotes.contains q = true) (cs : List Char) :
    (lower cs).contains q = cs.contains q := by
  rw [Bool.eq_iff_iff, List.contains_iff_mem, List.contains_iff_mem]
  constructor
  · intro h
    obtain ⟨c, hc, he⟩ := List.mem_map.mp h
    exact (lower_eq_iff (isWordChar_of_quote hq)).mp he ▸ hc
  · intro h
    have hsame : lower q = q := (lower_eq_iff (isWordChar_of_quote hq)).mpr rfl
    exact hsame ▸ List.mem_map_of_mem h

/-- **A text in small letters falls apart at the same places.** -/
theorem lexemes_lower (cs : List Char) : lexemes (lower cs) = lower (lexemes cs) := by
  fun_induction lexemes cs with
  | case1 => exact lexemes_nil
  | case2 c rest hb ih =>
    show lexemes (lower c :: lower rest) = _
    rw [lexemes_blank (by rw [isBlank_lower, hb]), ih]
    rfl
  | case3 c rest hb hq hc ih =>
    have hsame : lower c = c := (lower_eq_iff (isWordChar_of_quote hq)).mpr rfl
    have htail : lower (rest.dropWhile (· != c)).tail = (lower (rest.dropWhile (· != c))).tail :=
      List.map_tail
    show lexemes (lower c :: lower rest) = .quoted (lower c) _ :: lower (lexemes _)
    rw [hsame, lexemes_quote hq, contains_lower hq, if_pos hc, takeWhile_lower (lower_bne_quote hq),
      dropWhile_lower (lower_bne_quote hq), ← ih, htail]
  | case4 c rest hb hq hc =>
    have hsame : lower c = c := (lower_eq_iff (isWordChar_of_quote hq)).mpr rfl
    show lexemes (lower c :: lower rest) = [.unclosed (lower c) (lower rest)]
    rw [hsame, lexemes_quote hq, contains_lower hq, if_neg hc]
  | case5 c rest hb hq hm ih =>
    show lexemes (lower c :: lower rest) = _
    rw [lexemes_mark (by rw [marks_contains_lower, hm]), ih]
    rfl
  | case6 c rest hb hq hm ih =>
    have hword : isWordChar (lower c) = true := by
      rw [isWordChar_lower, isWordChar]
      simp only [hb, hq, hm, Bool.not_false, Bool.and_self]
    show lexemes (lower c :: lower rest) = _
    rw [lexemes_word hword, takeWhile_lower isWordChar_lower, dropWhile_lower isWordChar_lower, ih]
    rfl

theorem scan_lower (text : String) : scan (lower text) = lower (scan text) := by
  unfold scan
  rw [toList_lower, lexemes_lower]
  induction lexemes text.toList with
  | nil => rfl
  | cons x xs ih =>
    show (lower x).tokens ++ (lower xs).flatMap Lexeme.tokens = _
    rw [lexeme_tokens_lower, ih]
    exact List.map_append.symm

/-! ### Operators and names -/

namespace Expr

variable {α : Type} {ts : List Token}

theorem nextOperator_lower (ts : List Token) :
    nextOperator (lower ts) = (nextOperator ts).map lower := by
  have hdouble : ∀ (first second : Token) (op : BinOp) (us : List Token), lower first = first →
      lower second = second → (∀ vs, nextOperator (first :: second :: vs) = .ok (some (op, vs))) →
      nextOperator (lower (first :: second :: us)) =
        (nextOperator (first :: second :: us)).map lower := by
    intro first second op us h1 h2 hop
    show nextOperator (lower first :: lower second :: lower us) = _
    rw [h1, h2, hop, hop]
    rfl
  cases ts with
  | nil => rfl
  | cons t ts =>
    by_cases hn : t = "!"
    · subst hn
      have hsame : lower "!" = "!" := lower_token_of_mark (by decide)
      by_cases he : ts.head? = some "="
      · obtain ⟨us, rfl⟩ := List.head?_eq_some_iff.mp he
        exact hdouble _ _ .ne us hsame (lower_token_of_mark (by decide)) fun _ => rfl
      show nextOperator (lower "!" :: lower ts) = _
      rw [hsame, nextOperator_exclamation he,
        nextOperator_exclamation (mt (head?_lower (by decide)).mp he)]
      rfl
    by_cases hl : t = "<"
    · subst hl
      have hsame : lower "<" = "<" := lower_token_of_mark (by decide)
      by_cases he : ts.head? = some "="
      · obtain ⟨us, rfl⟩ := List.head?_eq_some_iff.mp he
        exact hdouble _ _ .le us hsame (lower_token_of_mark (by decide)) fun _ => rfl
      by_cases hg : ts.head? = some ">"
      · obtain ⟨us, rfl⟩ := List.head?_eq_some_iff.mp hg
        exact hdouble _ _ .ne us hsame (lower_token_of_mark (by decide)) fun _ => rfl
      show nextOperator (lower "<" :: lower ts) = _
      rw [hsame, nextOperator_lt he hg, nextOperator_lt (mt (head?_lower (by decide)).mp he)
        (mt (head?_lower (by decide)).mp hg)]
      rfl
    by_cases hg : t = ">"
    · subst hg
      have hsame : lower ">" = ">" := lower_token_of_mark (by decide)
      by_cases he : ts.head? = some "="
      · obtain ⟨us, rfl⟩ := List.head?_eq_some_iff.mp he
        exact hdouble _ _ .ge us hsame (lower_token_of_mark (by decide)) fun _ => rfl
      show nextOperator (lower ">" :: lower ts) = _
      rw [hsame, nextOperator_gt he, nextOperator_gt (mt (head?_lower (by decide)).mp he)]
      rfl
    have hn' : lower t ≠ "!" := mt (lower_token_eq_iff (by decide)).mp hn
    have hl' : lower t ≠ "<" := mt (lower_token_eq_iff (by decide)).mp hl
    have hg' : lower t ≠ ">" := mt (lower_token_eq_iff (by decide)).mp hg
    show nextOperator (lower t :: lower ts) = _
    rw [nextOperator_single hn hl hg, nextOperator_single hn' hl' hg', operatorOfToken_lower]
    cases operatorOfToken t <;> rfl

theorem lower_point (table name : Token) :
    lower (if Text.isNumeral table && Text.isNumeral name then number (table ++ "." ++ name)
      else qualified table name) =
    if Text.isNumeral (lower table) && Text.isNumeral (lower name) then
      number (lower table ++ "." ++ lower name) else qualified (lower table) (lower name) := by
  rw [isNumeral_lower, isNumeral_lower]
  by_cases h : (Text.isNumeral table && Text.isNumeral name) = true
  · rw [if_pos h, if_pos h]
    rw [Bool.and_eq_true] at h
    rw [lower_of_isNumeral h.1, lower_of_isNumeral h.2]
    rfl
  · rw [if_neg h, if_neg h]
    rfl

theorem lower_alone (first : Token) :
    lower (if Text.isNumeral first then number first else column first) =
      if Text.isNumeral (lower first) then number (lower first) else column (lower first) := by
  rw [isNumeral_lower]
  by_cases h : Text.isNumeral first = true
  · rw [if_pos h, if_pos h, lower_of_isNumeral h]
    rfl
  · rw [if_neg h, if_neg h]
    rfl

theorem run_readName_lower (ts : List Token) :
    Reader.run readName (lower ts) = (Reader.run readName ts).map lower := by
  cases ts with
  | nil => rfl
  | cons first ts =>
    show Reader.run readName (lower first :: lower ts) = _
    by_cases hp : ts.head? = some "."
    · obtain ⟨us, rfl⟩ := List.head?_eq_some_iff.mp hp
      have hsame : lower "." = "." := lower_token_of_mark (by decide)
      show Reader.run readName (lower first :: lower "." :: lower us) = _
      rw [hsame]
      cases us with
      | nil => rfl
      | cons second us =>
        show Reader.run readName (lower first :: "." :: lower second :: lower us) = _
        rw [run_readName_point, run_readName_point, ← lower_point]
        rfl
    · rw [run_readName_alone _ hp, run_readName_alone _ (mt (head?_lower (by decide)).mp hp),
        ← lower_alone]
      rfl

theorem run_readQuoted_lower {q : Token} (hq : isQuote q = true) (ts : List Token) :
    Reader.run readQuoted (lower (q :: ts)) = (Reader.run readQuoted (q :: ts)).map lower := by
  have hmark := letterless_of_isQuote hq
  show Reader.run readQuoted (lower q :: lower ts) = _
  rw [lower_token_of_mark hmark]
  match ts with
  | [] => rfl
  | [_] => rfl
  | content :: close :: rest =>
    show (readQuoted (q :: lower content :: lower close :: lower rest)).map _ = _
    rw [Reader.run, readQuoted, readQuoted]
    by_cases hc : close = q
    · rw [if_pos hc, if_pos ((lower_token_eq_iff hmark).mpr hc)]
      rfl
    · rw [if_neg hc, if_neg (mt (lower_token_eq_iff hmark).mp hc)]
      rfl

end Expr

/-! ### Readers -/

section Outcomes

variable {ε α β : Type} [CaseFold α] [CaseFold β]

theorem bind_lower {x y : Except ε α} {f g : α → Except ε β} (hx : y = x.map lower)
    (hf : ∀ a, x = .ok a → g (lower a) = (f a).map lower) : y >>= g = (x >>= f).map lower := by
  subst hx
  cases x with
  | error e => rfl
  | ok a => exact hf a rfl

theorem lower_pair (a : α) (b : β) : lower (a, b) = (lower a, lower b) := rfl

/-- Does the reader return the same, in small letters, on tokens in small letters? -/
def FoldsCase (read : List Token → Except SyntaxError (α × List Token)) : Prop :=
  ∀ ts, read (lower ts) = (read ts).map lower

end Outcomes

namespace Expr

variable {α : Type} {first : Token} {ts : List Token}

theorem closed_lower (failure : SyntaxError) [CaseFold α] (x : α × List Token) :
    closed failure (lower x) = (closed failure x).map lower := by
  obtain ⟨a, us⟩ := x
  show (if (lower us).head? = some ")" then _ else _) = _
  rw [closed]
  by_cases hc : us.head? = some ")"
  · rw [if_pos hc, if_pos ((head?_lower (by decide)).mpr hc)]
    exact congrArg (fun vs => Except.ok (lower a, vs)) List.map_tail.symm
  · rw [if_neg hc, if_neg (mt (head?_lower (by decide)).mp hc)]
    rfl

theorem assemble_lower (es : List Expr) (ops : List BinOp) :
    assemble (lower es) (lower ops) = (assemble es ops).map lower := by
  have hops : lower ops = ops := List.map_id ops
  cases es with
  | nil => rfl
  | cons head es =>
    show (if (es.map lower).length = _ then some (ofChain (lower head) (_ : List _)) else none) = _
    rw [hops, assemble, List.length_map]
    by_cases hl : es.length = ops.length
    · rw [if_pos hl, if_pos hl, List.zip_map_right]
      exact congrArg some (ofChain_map (fun _ _ _ => rfl) head _).symm
    · rw [if_neg hl, if_neg hl]
      rfl

/-- An operand folds if the expressions inside it do. -/
theorem run_readOperand_lower (ih : ∀ us : List Token, us.length < ts.length →
      Reader.run readExpr (lower us) = (Reader.run readExpr us).map lower) :
    Reader.run readOperand (lower ts) = (Reader.run readOperand ts).map lower := by
  cases ts with
  | nil =>
    show Reader.run readOperand [] = _
    rw [Reader.run, readOperand]
    rfl
  | cons first ts =>
    show Reader.run readOperand (lower first :: lower ts) = _
    rw [run_readOperand, run_readOperand, isQuote_lower]
    by_cases hp : first = "("
    · rw [if_pos hp, if_pos ((lower_token_eq_iff (by decide)).mpr hp)]
      exact bind_lower (ih ts (Nat.lt_succ_self _)) fun x _ => closed_lower _ x
    rw [if_neg hp, if_neg (mt (lower_token_eq_iff (by decide)).mp hp)]
    by_cases hq : isQuote first = true
    · rw [if_pos hq, if_pos hq]
      exact run_readQuoted_lower hq ts
    rw [if_neg hq, if_neg hq]
    by_cases hc : ts.head? = some "("
    · rw [if_pos hc, if_pos ((head?_lower (by decide)).mpr hc)]
      obtain ⟨us, rfl⟩ := List.head?_eq_some_iff.mp hc
      have hshort : us.length < (first :: "(" :: us).length :=
        Nat.lt_succ_of_lt (Nat.lt_succ_self _)
      refine bind_lower (ih us hshort) fun x _ => ?_
      exact bind_lower (closed_lower _ x) fun _ _ => rfl
    · rw [if_neg hc, if_neg (mt (head?_lower (by decide)).mp hc)]
      exact run_readName_lower (first :: ts)

theorem run_readExpr_lower
    (h : Reader.run readChain (lower ts) = (Reader.run readChain ts).map lower) :
    Reader.run readExpr (lower ts) = (Reader.run readExpr ts).map lower := by
  rw [run_readExpr, run_readExpr]
  refine bind_lower h fun ⟨⟨es, ops⟩, rest⟩ _ => ?_
  dsimp only [lower_pair]
  rw [assemble_lower]
  cases assemble es ops <;> rfl

theorem run_readChain_lower (ts : List Token) :
    Reader.run readChain (lower ts) = (Reader.run readChain ts).map lower := by
  induction hn : ts.length using Nat.strongRecOn generalizing ts with
  | _ n ih =>
    subst hn
    have ho := run_readOperand_lower fun us hus => run_readExpr_lower (ih us.length hus us rfl)
    rw [run_readChain, run_readChain]
    refine bind_lower ho fun ⟨e, mid⟩ hmid => ?_
    dsimp only [lower_pair]
    refine bind_lower (nextOperator_lower mid) fun op hop => ?_
    cases op with
    | none => rfl
    | some x =>
      obtain ⟨op, rest⟩ := x
      have hshort := Nat.lt_trans (nextOperator_shorter hop) (run_shorter hmid)
      exact bind_lower (ih rest.length hshort rest rfl) fun _ _ => rfl

/-- **The reader of expressions folds.** -/
theorem foldsCase_readExpr : FoldsCase (Reader.run readExpr) :=
  fun ts => run_readExpr_lower (run_readChain_lower ts)

end Expr

/-! ### Items and lists -/

section Items

variable {α : Type} [CaseFold α] {item : Reader α} {keyword : String} {ts : List Token}

theorem foldsCase_token : FoldsCase (Reader.run Reader.token) := by
  intro ts
  cases ts <;> rfl

theorem tail_lower (ts : List Token) : (lower ts).tail = lower ts.tail :=
  List.map_tail.symm

theorem foldsCase_aliased (h : FoldsCase (Reader.run item)) :
    FoldsCase (Reader.run (Reader.aliased item)) := by
  intro ts
  rw [run_aliased, run_aliased]
  refine bind_lower (h ts) fun ⟨x, mid⟩ _ => ?_
  dsimp only [lower_pair]
  rw [nextIsKeyword_lower, tail_lower]
  cases nextIsKeyword "AS" mid with
  | false => rfl
  | true =>
    rw [if_pos rfl, if_pos rfl]
    exact bind_lower (foldsCase_token mid.tail) fun _ _ => rfl

theorem foldsCase_sortKey : FoldsCase (Reader.run SortKey.read) := by
  intro ts
  rw [run_sortKey, run_sortKey]
  refine bind_lower (Expr.foldsCase_readExpr ts) fun ⟨e, mid⟩ _ => ?_
  dsimp only [lower_pair]
  rw [nextIsKeyword_lower, nextIsKeyword_lower, tail_lower]
  cases nextIsKeyword "DESC" mid with
  | true => rfl
  | false => cases nextIsKeyword "ASC" mid <;> rfl

/-- A list folds if its items do. -/
theorem foldsCase_commaList (h : FoldsCase (Reader.run item)) :
    FoldsCase (Reader.run (Reader.commaList item)) := by
  intro ts
  induction hn : ts.length using Nat.strongRecOn generalizing ts with
  | _ n ih =>
    subst hn
    rw [run_commaList, run_commaList]
    refine bind_lower (h ts) fun ⟨x, mid⟩ hx => ?_
    dsimp only [lower_pair]
    by_cases hc : mid.head? = some ","
    · rw [if_pos hc, if_pos ((head?_lower (by decide)).mpr hc)]
      have hshort : mid.tail.length < ts.length := by
        have hmid := Expr.run_shorter hx
        rw [List.length_tail]
        omega
      rw [tail_lower]
      exact bind_lower (ih mid.tail.length hshort mid.tail rfl) fun _ _ => rfl
    · rw [if_neg hc, if_neg (mt (head?_lower (by decide)).mp hc)]
      rfl

/-! ### Clauses and statements -/

theorem expectKeyword_lower (failure : SyntaxError) (ts : List Token) :
    expectKeyword keyword failure (lower ts) = (expectKeyword keyword failure ts).map lower := by
  rw [expectKeyword, expectKeyword, nextIsKeyword_lower, tail_lower]
  cases nextIsKeyword keyword ts <;> rfl

theorem foldsCase_clause {body : List Token → Except SyntaxError (α × List Token)}
    (h : FoldsCase body) : FoldsCase (clause keyword body) := by
  intro ts
  rw [clause, clause, nextIsKeyword_lower, tail_lower, h]
  cases nextIsKeyword keyword ts with
  | false => rfl
  | true =>
    simp only [if_true]
    cases body ts.tail <;> rfl

theorem foldsCase_byList {failure : SyntaxError} (h : FoldsCase (Reader.run item)) :
    FoldsCase (byList failure item) :=
  fun ts => bind_lower (expectKeyword_lower failure ts) fun us _ => foldsCase_commaList h us

end Items

/-- A query folds clause by clause. -/
theorem foldsCase_select : FoldsCase Select.read := by
  intro ts
  refine bind_lower (foldsCase_commaList (foldsCase_aliased Expr.foldsCase_readExpr) ts)
    fun ⟨_, ts1⟩ _ => ?_
  dsimp only [lower_pair]
  refine bind_lower (foldsCase_clause (foldsCase_commaList (foldsCase_aliased foldsCase_token)) ts1)
    fun ⟨tables, ts2⟩ _ => ?_
  dsimp only [lower_pair]
  refine bind_lower (foldsCase_clause Expr.foldsCase_readExpr ts2) fun ⟨_, ts3⟩ _ => ?_
  dsimp only [lower_pair]
  refine bind_lower (foldsCase_clause (foldsCase_byList Expr.foldsCase_readExpr) ts3)
    fun ⟨_, ts4⟩ _ => ?_
  dsimp only [lower_pair]
  refine bind_lower (foldsCase_clause Expr.foldsCase_readExpr ts4) fun ⟨_, ts5⟩ _ => ?_
  dsimp only [lower_pair]
  refine bind_lower (foldsCase_clause (foldsCase_byList foldsCase_sortKey) ts5)
    fun ⟨_, ts6⟩ _ => ?_
  dsimp only [lower_pair]
  refine bind_lower (foldsCase_clause Expr.foldsCase_readExpr ts6) fun ⟨limit, ts7⟩ _ => ?_
  dsimp only [lower_pair]
  by_cases hc : ts7.head? = some ";"
  · obtain ⟨us, rfl⟩ := List.head?_eq_some_iff.mp hc
    have hcons : lower (";" :: us) = ";" :: lower us :=
      congrArg (· :: lower us) (lower_token_of_mark (by decide))
    have htables : (lower tables).getD [] = lower (tables.getD []) := by cases tables <;> rfl
    rw [hcons, htables]
    rfl
  · have hlower : (lower ts7).head? ≠ some ";" := mt (head?_lower (by decide)).mp hc
    split
    · next us he => exact (hlower (by rw [he]; rfl)).elim
    · split
      · next us he => exact (hc rfl).elim
      · rfl

namespace Statement

/-- **The reader of statements folds.** -/
theorem foldsCase_read : FoldsCase read := by
  intro ts
  cases ts with
  | nil => rfl
  | cons first ts =>
    show read (lower first :: lower ts) = _
    rw [read, read, isKeyword_lower, isKeyword_lower]
    cases isKeyword "SELECT" first with
    | true => exact bind_lower (foldsCase_select ts) fun _ _ => rfl
    | false =>
      cases isKeyword "CREATE" first with
      | false => rfl
      | true =>
        refine bind_lower (expectKeyword_lower _ ts) fun ts1 _ => ?_
        refine bind_lower (foldsCase_token ts1) fun named _ => ?_
        obtain ⟨name, ts2⟩ := named
        refine bind_lower (expectKeyword_lower _ ts2) fun ts3 _ => ?_
        refine bind_lower (expectKeyword_lower _ ts3) fun ts4 _ => ?_
        exact bind_lower (foldsCase_select ts4) fun _ _ => rfl

theorem terminate_lower (ts : List Token) : terminate (lower ts) = lower (terminate ts) := by
  have hlast : (lower ts).getLast? = some ";" ↔ ts.getLast? = some ";" := by
    show (ts.map lower).getLast? = _ ↔ _
    rw [List.getLast?_map]
    cases ts.getLast? with
    | none => exact Iff.rfl
    | some t =>
      rw [Option.map_some, Option.some_inj, Option.some_inj]
      exact lower_token_eq_iff (by decide)
  unfold terminate
  by_cases h : ts.getLast? = some ";"
  · rw [if_pos h, if_pos (hlast.mpr h)]
  · have hsame : lower [";"] = [";"] := congrArg (fun t => [t]) (lower_token_of_mark (by decide))
    rw [if_neg h, if_neg (mt hlast.mp h)]
    exact (List.map_append.trans (congrArg (lower ts ++ ·) hsame)).symm

end Statement

/-- **Case of letters does not matter to parsing.**  A text in small letters is parsed to the same
statement or expression in small letters, or refused with the same error; where an error names a
token, the token is in small letters. -/
theorem parse_lower (text : String) :
    Statement.parse text.toLower = (Statement.parse text).map lower ∧
      Expr.parse text.toLower = ((Expr.parse text).map lower).mapError lower := by
  have hscan : scan text.toLower = lower (scan text) := scan_lower text
  constructor
  · unfold Statement.parse
    dsimp only
    rw [hscan, Statement.terminate_lower]
    cases scan text with
    | nil => rfl
    | cons t ts => exact bind_lower (Statement.foldsCase_read _) fun _ _ => rfl
  · unfold Expr.parse
    rw [hscan, Expr.read, Expr.foldsCase_readExpr]
    show _ = ((Reader.run Expr.readExpr (scan text) >>= _).map _).mapError _
    rcases hr : Reader.run Expr.readExpr (scan text) with err | ⟨e, rest⟩
    · have hsame : lower err = err := by
        cases err with
        | trailing t => exact (Expr.not_trails_readExpr _ ⟨t, hr⟩).elim
        | _ => rfl
      exact congrArg Except.error hsame.symm
    · cases rest <;> rfl

end QueryTrace

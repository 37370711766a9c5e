/-
Expressions that come from a text.

Not every tree can be parsed from a text, and those that can are spelled readably
(`readable_of_parse`).  The readers go through the tokens of a text in step with its lexemes, with
one exception: behind a point a quote is taken for a name, and the content of the quoted text is
left behind it.

* `OperandPos` and `OperatorPos` — where in a text an operand or an operator may be read;
* `Reads.positions` — a phrase that begins at such a place is readable and ends at one.

Design notes: once out of step the readers never get back into step before the end of the text.
`AtClose` and `InQuote` say how they may be out of step.
-/
import QueryTrace.Proofs.Spelling

namespace QueryTrace.Expr

open Token

/-! ### Places in a text -/

/-- The tokens begin with the closing quote of a quoted text. -/
def AtClose (ts : List Token) : Prop :=
  ∃ q us, quotes.contains q = true ∧ Scanned us ∧ ts = q.toString :: us

/-- The tokens begin with the content of a text in the quotes `q`. -/
def InQuote (q : Char) (ts : List Token) : Prop :=
  ∃ content : List Char, q ∉ content ∧ (ts = [String.ofList content] ∨
    ∃ us, Scanned us ∧ ts = String.ofList content :: q.toString :: us)

/-- A place where an operand may be read. -/
def OperandPos (ts : List Token) : Prop :=
  Scanned ts ∨ AtClose ts

/-- A place where an operator may be read. -/
def OperatorPos (ts : List Token) : Prop :=
  OperandPos ts ∨ ∃ q, quotes.contains q = true ∧ InQuote q ts

variable {t : Token} {ts rest : List Token}

theorem isQuote_toString {q : Char} (hq : quotes.contains q = true) :
    isQuote q.toString = true :=
  isQuote_iff.mpr ⟨q, hq, rfl⟩

/-- Behind a token that is no quote the text goes on in step. -/
theorem name_of_scanned (h : Scanned (t :: ts)) (hq : isQuote t = false) :
    IsName t ∧ Scanned ts := by
  cases h with
  | name ht hts => exact ⟨ht, hts⟩
  | quoted hc _ _ =>
    rw [isQuote_toString hc] at hq
    cases hq
  | unclosed hc _ =>
    rw [isQuote_toString hc] at hq
    cases hq

theorem inQuote_of_scanned (h : Scanned (t :: ts)) (hq : isQuote t = true) :
    ∃ q, quotes.contains q = true ∧ t = q.toString ∧ InQuote q ts := by
  cases h with
  | name ht hts =>
    rw [ht.isQuote_eq_false] at hq
    cases hq
  | quoted hc hmem hts => exact ⟨_, hc, rfl, _, hmem, .inr ⟨_, hts, rfl⟩⟩
  | unclosed hc hmem => exact ⟨_, hc, rfl, _, hmem, .inl rfl⟩

theorem InQuote.tail {q : Char} (hq : quotes.contains q = true) (h : InQuote q (t :: ts)) :
    OperandPos ts := by
  obtain ⟨content, -, h | ⟨us, hus, h⟩⟩ := h
  · cases h
    exact .inl .nil
  · cases h
    exact .inr ⟨q, us, hq, hus, rfl⟩

/-- A token that is no quote is the first of an operand only in step. -/
theorem OperandPos.scanned (h : OperandPos (t :: ts)) (hq : isQuote t = false) :
    Scanned (t :: ts) := by
  rcases h with h | ⟨q, us, hc, -, he⟩
  · exact h
  · cases he
    rw [isQuote_toString hc] at hq
    cases hq

/-- A token that is no quote may be left out at a place where an operator may be read. -/
theorem OperatorPos.tail (h : OperatorPos (t :: ts)) (hq : isQuote t = false) :
    OperandPos ts := by
  rcases h with h | ⟨q, hc, h⟩
  · exact .inl (name_of_scanned (h.scanned hq) hq).2
  · exact h.tail hc

/-! ### Operators -/

theorem nextOperator_quote (hq : isQuote t = true) (ts : List Token) :
    nextOperator (t :: ts) = .ok none := by
  rw [isQuote, Bool.or_eq_true, beq_iff_eq, beq_iff_eq] at hq
  have hd : operatorOfToken "\"" = none := by decide +kernel
  have hs : operatorOfToken "'" = none := by decide +kernel
  rcases hq with rfl | rfl
  · rw [nextOperator_single (by decide) (by decide) (by decide), hd]
    rfl
  · rw [nextOperator_single (by decide) (by decide) (by decide), hs]
    rfl

theorem OperatorPos.nextOperator {op : BinOp} (h : OperatorPos ts)
    (hn : nextOperator ts = .ok (some (op, rest))) : OperandPos rest := by
  cases ts with
  | nil => cases hn
  | cons t ts =>
    have hq : isQuote t = false := by
      cases hq : isQuote t with
      | false => rfl
      | true =>
        rw [nextOperator_quote hq] at hn
        cases hn
    have hmark : ∀ {m : Token}, isQuote m = false → ts = m :: rest → OperandPos rest := by
      rintro m hm rfl
      have hts := (h.tail hq).scanned hm
      exact .inl (name_of_scanned hts hm).2
    rcases nextOperator_eq_some hn with rfl | hts | hts
    · exact h.tail hq
    · exact hmark (by decide) hts
    · exact hmark (by decide) hts

/-! ### Operands -/

theorem run_readName_eq_ok {first : Token} {e : Expr}
    (h : Reader.run readName (first :: ts) = .ok (e, rest)) :
    rest = ts ∧ e = (if Text.isNumeral first then .number first else .column first) ∨
      ∃ second, ts = "." :: second :: rest ∧
        e = if Text.isNumeral first && Text.isNumeral second then
          .number (first ++ "." ++ second) else .qualified first second := by
  by_cases hp : ts.head? = some "."
  · obtain ⟨us, rfl⟩ := List.head?_eq_some_iff.mp hp
    cases us with
    | nil => cases h
    | cons second us =>
      rw [run_readName_point] at h
      cases h
      exact .inr ⟨second, rfl, rfl⟩
  · rw [run_readName_alone first hp] at h
    cases h
    exact .inl ⟨rfl, rfl⟩

theorem readable_alone {first : Token} (hf : IsName first) (hp : first ≠ "(") :
    Readable (if Text.isNumeral first then .number first else .column first) := by
  cases hd : Text.isNumeral first with
  | true => exact .inl hd
  | false => exact ⟨hf, hp, hd⟩

theorem readable_point {first second : Token} (hf : IsName first) (hp : first ≠ "(")
    (hs : IsName second ∨ isQuote second = true) :
    Readable (if Text.isNumeral first && Text.isNumeral second then
      .number (first ++ "." ++ second) else .qualified first second) := by
  cases hd : Text.isNumeral first && Text.isNumeral second with
  | true =>
    rw [Bool.and_eq_true] at hd
    exact .inr ⟨first, second, hd.1, hd.2, rfl⟩
  | false => exact ⟨hf, hp, hs, hd⟩

theorem readable_text {q : Char} (hq : quotes.contains q = true) {content : String}
    (h : q ∉ content.toList) : Readable (.text content) := by
  simp only [quotes, List.contains_eq_mem, List.mem_cons, List.not_mem_nil, or_false,
    decide_eq_true_eq] at hq
  rcases hq with rfl | rfl
  · exact .inl h
  · exact .inr h

/-- A quoted text is read in step, or between a closing quote and the quote or content behind it. -/
theorem quoted_of_operandPos {q content : Token} (h : OperandPos (q :: content :: q :: rest))
    (hq : isQuote q = true) : Readable (.text content) ∧ OperatorPos rest := by
  rcases h with h | ⟨c, us, hc, hus, he⟩
  · obtain ⟨c, hc, rfl, cs, hmem, he | ⟨us, hus, he⟩⟩ := inQuote_of_scanned h hq
    · cases he
    · cases he
      exact ⟨readable_text hc (by simpa using hmem), .inl (.inl hus)⟩
  -- between: the closing quote is read as an opening one, and the next lexeme as its content
  · cases he
    cases hcq : isQuote content with
    | false =>
      obtain ⟨hname, hs⟩ := name_of_scanned hus hcq
      obtain ⟨d, hd, -, hin⟩ := inQuote_of_scanned hs hq
      exact ⟨readable_text hc (hname.quote_not_mem hc), .inr ⟨d, hd, hin⟩⟩
    | true =>
      obtain ⟨d, hd, rfl, hin⟩ := inQuote_of_scanned hus hcq
      refine ⟨?_, .inl (hin.tail hd)⟩
      by_cases hcd : d = '"'
      · subst hcd
        exact .inr (by decide)
      · exact .inl (by simpa using Ne.symm hcd)

/-- A name is read in step, and only a quote behind a point brings the reader out of step. -/
theorem name_of_operandPos {first : Token} {e : Expr} (h : OperandPos (first :: ts))
    (hp : first ≠ "(") (hq : isQuote first = false)
    (hn : Reader.run readName (first :: ts) = .ok (e, rest)) :
    e.Readable ∧ OperatorPos rest := by
  obtain ⟨hf, hts⟩ := name_of_scanned (h.scanned hq) hq
  rcases run_readName_eq_ok hn with ⟨rfl, rfl⟩ | ⟨second, rfl, rfl⟩
  · exact ⟨readable_alone hf hp, .inl (.inl hts)⟩
  · have hs := (name_of_scanned hts (by decide)).2
    cases hsq : isQuote second with
    | false =>
      obtain ⟨hname, hrest⟩ := name_of_scanned hs hsq
      exact ⟨readable_point hf hp (.inl hname), .inl (.inl hrest)⟩
    | true =>
      obtain ⟨c, hc, -, hin⟩ := inQuote_of_scanned hs hsq
      exact ⟨readable_point hf hp (.inr hsq), .inr ⟨c, hc, hin⟩⟩

/-! ### Whole expressions -/

theorem splitLoosest_eq_some {op : BinOp} {tail before after : Tail} {x : Expr}
    (h : splitLoosest tail = some (op, before, x, after)) :
    tail = before ++ (op, x) :: after := by
  obtain ⟨o, -, ho⟩ := List.exists_of_findSome?_eq_some h
  obtain ⟨⟨b, y, a⟩, hb, he⟩ := Option.map_eq_some_iff.mp ho
  simp only [Prod.mk.injEq] at he
  obtain ⟨rfl, rfl, rfl, rfl⟩ := he
  exact (splitAtOp_eq_some hb).1

/-- Only a chain without operators cannot be split. -/
theorem eq_nil_of_splitLoosest {tail : Tail} (h : splitLoosest tail = none) : tail = [] := by
  cases tail with
  | nil => rfl
  | cons x tail =>
    obtain ⟨op, e⟩ := x
    have hop := List.findSome?_eq_none_iff.mp h op (BinOp.mem_byLooseness op)
    simp [splitAtOp] at hop

/-- What an operation has from its operands, with something of its own between them, a chain has
from its operands and operators in their order. -/
theorem ofChain_append {β : Type} {f : Expr → List β} (between : BinOp → List β)
    (hf : ∀ op l r, f (binary op l r) = f l ++ (between op ++ f r)) (head : Expr) (tail : Tail) :
    f (ofChain head tail) = f head ++ tail.flatMap fun x => between x.1 ++ f x.2 := by
  fun_induction ofChain head tail with
  | case1 head tail hs =>
    rw [eq_nil_of_splitLoosest hs]
    simp
  | case2 head tail op before x after hs ihb iha =>
    rw [splitLoosest_eq_some hs, hf, ihb, iha]
    simp

section Map

variable {f : Expr → Expr}

theorem splitAtOp_map (op : BinOp) (tail : Tail) :
    splitAtOp op (tail.map fun x => (x.1, f x.2)) = (splitAtOp op tail).map fun s =>
      (s.1.map fun x => (x.1, f x.2), f s.2.1, s.2.2.map fun x => (x.1, f x.2)) := by
  induction tail with
  | nil => rfl
  | cons x tail ih =>
    obtain ⟨o, e⟩ := x
    rw [List.map_cons, splitAtOp, splitAtOp]
    by_cases ho : o = op
    · rw [if_pos ho, if_pos ho]
      rfl
    · rw [if_neg ho, if_neg ho, ih]
      cases splitAtOp op tail <;> rfl

theorem splitLoosest_map (tail : Tail) :
    splitLoosest (tail.map fun x => (x.1, f x.2)) = (splitLoosest tail).map fun s =>
      (s.1, s.2.1.map fun x => (x.1, f x.2), f s.2.2.1, s.2.2.2.map fun x => (x.1, f x.2)) := by
  unfold splitLoosest
  induction BinOp.byLooseness with
  | nil => rfl
  | cons op ops ih =>
    rw [List.findSome?_cons, List.findSome?_cons, splitAtOp_map, ih]
    cases splitAtOp op tail <;> rfl

/-- A map that leaves operations alone may be applied to a chain or to its operands. -/
theorem ofChain_map (hf : ∀ op l r, f (binary op l r) = binary op (f l) (f r)) (head : Expr)
    (tail : Tail) : f (ofChain head tail) = ofChain (f head) (tail.map fun x => (x.1, f x.2)) := by
  fun_induction ofChain head tail with
  | case1 head tail hs =>
    rw [eq_nil_of_splitLoosest hs]
    exact (ofChain_nil _).symm
  | case2 head tail op before x after hs ihb iha =>
    have hm := splitLoosest_map (f := f) tail
    rw [hs] at hm
    rw [ofChain_eq hm, hf, ihb, iha]

end Map

theorem readable_ofChain {head : Expr} {tail : Tail} (hh : head.Readable)
    (ht : ∀ x ∈ tail, x.2.Readable) : (ofChain head tail).Readable := by
  fun_induction ofChain head tail with
  | case1 head tail hs => exact hh
  | case2 head tail op before x after hs ihb iha =>
    have htail := splitLoosest_eq_some hs
    subst htail
    refine ⟨ihb hh fun y hy => ht y (by simp [hy]), iha ?_ fun y hy => ht y (by simp [hy])⟩
    exact ht (op, x) (by simp)

/-- Are the expressions of the phrase readable? -/
def Phrase.Readable : Phrase → Prop
  | operand e => e.Readable
  | chain head tail => head.Readable ∧ ∀ x ∈ tail, x.2.Readable
  | expr e => e.Readable

/-- What is read where an operand may be read is readable, and an operator may be read behind it. -/
theorem Reads.positions {p : Phrase} (h : Reads p ts rest) (hpos : OperandPos ts) :
    p.Readable ∧ OperatorPos rest := by
  induction h with
  | paren _ ih =>
    have hts := (name_of_scanned (hpos.scanned (by decide)) (by decide)).2
    obtain ⟨he, hrest⟩ := ih (.inl hts)
    exact ⟨he, .inl (hrest.tail (by decide))⟩
  | quoted hq => exact quoted_of_operandPos hpos hq
  | call hf hq _ ih =>
    obtain ⟨hname, hts⟩ := name_of_scanned (hpos.scanned hq) hq
    obtain ⟨ha, hrest⟩ := ih (.inl (name_of_scanned hts (by decide)).2)
    exact ⟨⟨hname, hf, ha⟩, .inl (hrest.tail (by decide))⟩
  | name hp hq _ hn => exact name_of_operandPos hpos hp hq hn
  | last _ _ ih =>
    obtain ⟨he, hrest⟩ := ih hpos
    exact ⟨⟨he, by simp⟩, hrest⟩
  | more _ hn _ ih ih' =>
    obtain ⟨he, hmid⟩ := ih hpos
    obtain ⟨⟨hh, ht⟩, hrest⟩ := ih' (hmid.nextOperator hn)
    refine ⟨⟨he, fun x hx => ?_⟩, hrest⟩
    rcases List.mem_cons.mp hx with rfl | hx
    · exact hh
    · exact ht x hx
  | expr _ ih =>
    obtain ⟨⟨hh, ht⟩, hrest⟩ := ih hpos
    exact ⟨readable_ofChain hh ht, hrest⟩

/-- Whatever is parsed from a text is readable. -/
theorem readable_of_parse {text : String} {e : Expr} (h : Expr.parse text = .ok e) :
    e.Readable :=
  ((parse_eq_ok_iff.mp h).positions (.inl (scanned_tokensOf text.toList))).1

end QueryTrace.Expr

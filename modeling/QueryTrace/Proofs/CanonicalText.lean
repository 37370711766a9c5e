/-
Which expressions are read back from their canonical text.

Printing and parsing are not inverse on all expressions that come from a text.  The text `a < (=)`
compares two columns, and its canonical text `a < =` loses the parentheses that kept the operator
from the name behind it.  A name that is a quote swallows the text behind it.

* `parse_print_of_noMerge` — an expression without such names is read back;
* `operandItems` and `operatorItems` — what the tokens of a text say if parentheses are left out;
* `Reads.items_eq` — a phrase says the same as its tokens;
* `keepsNames` — if the canonical text says the same as the expression, then no name is lost;
* `parse_print_iff` — an expression is read back exactly if no operator merges with a name and no
  quote swallows text.

Design notes: a text that is read as another expression has to differ from the canonical text
somewhere, but parentheses may shift and all trees differ above the place.  Items leave parentheses
out, so that the first difference can be found by going through the expression.
-/
import QueryTrace.Proofs.Parsed

namespace QueryTrace.Expr

open Token

/-! ### Expressions that are read back -/

/-- An expression is read back from its canonical text if no name is lost in it. -/
theorem parse_print_of_noMerge {e : Expr} (hr : e.Readable) (hm : e.NoMerge)
    (hq : e.QuotesHarmless (some 0)) : Expr.parse e.print = .ok e := by
  have hscan : scan e.print = e.spell := by
    have hb : Behind (some 0) [] := rfl
    have := tokensOf_print hr hb hq
    rwa [List.append_nil, tokensOf_nil, List.append_nil] at this
  have hend : Stops [] := by simp [Stops]
  have hread := (readsBack hr hm).expr [] hend rfl
  rw [List.append_nil] at hread
  rw [parse_eq_ok_iff, hscan]
  exact hread

/-! ### What a text says without parentheses -/

/-- What is read in one go. -/
inductive Item where
  /-- An operand without operands of its own. -/
  | atom (e : Expr)
  | call (function : String)
  | op (op : BinOp)
  /-- Reading does not go on. -/
  | stray
  deriving DecidableEq

/-- What the expression says from left to right. -/
def items : Expr → List Item
  | aggregate function argument => .call function :: argument.items
  | binary op l r => l.items ++ .op op :: r.items
  | e => [.atom e]

mutual

/-- What the tokens say where an operand is read. -/
def operandItems (ts : List Token) : List Item :=
  match ts with
  | [] => [.stray]
  | first :: rest =>
    if first = "(" then operandItems rest
    else if isQuote first then
      match readQuoted (first :: rest) with
      | .ok x => .atom x.value :: operatorItems x.rest
      | .error _ => [.stray]
    else if rest.head? = some "(" then .call first :: operandItems rest.tail
    else
      match readName (first :: rest) with
      | .ok x => .atom x.value :: operatorItems x.rest
      | .error _ => [.stray]
termination_by ts.length
decreasing_by
  · simp
  · exact x.shorter
  · simp only [List.length_tail, List.length_cons]
    omega
  · exact x.shorter

/-- What the tokens say where an operator is read. -/
def operatorItems (ts : List Token) : List Item :=
  match ts with
  | [] => []
  | first :: rest =>
    if first = ")" then operatorItems rest
    else
      match readOperator (first :: rest) with
      | .ok (some x) => .op x.value :: operandItems x.rest
      | _ => [.stray]
termination_by ts.length
decreasing_by
  · simp
  · exact x.shorter

end

section Items

variable {first : Token} {ts rest : List Token} {e : Expr}

theorem operandItems_paren (ts : List Token) : operandItems ("(" :: ts) = operandItems ts := by
  rw [operandItems, if_pos rfl]

theorem operandItems_quoted {q : Token} (hq : isQuote q = true) (content : Token)
    (rest : List Token) :
    operandItems (q :: content :: q :: rest) = .atom (.text content) :: operatorItems rest := by
  have hp : q ≠ "(" := by
    rintro rfl
    exact absurd hq (by decide)
  rw [operandItems, if_neg hp, if_pos hq]
  simp [readQuoted]

theorem operandItems_call (hp : first ≠ "(") (hq : isQuote first = false) (ts : List Token) :
    operandItems (first :: "(" :: ts) = .call first :: operandItems ts := by
  rw [operandItems, if_neg hp, if_neg (by simp [hq]), List.head?_cons, if_pos rfl]
  rfl

theorem operandItems_name (hp : first ≠ "(") (hq : isQuote first = false)
    (hc : ts.head? ≠ some "(") (hn : Reader.run readName (first :: ts) = .ok (e, rest)) :
    operandItems (first :: ts) = .atom e :: operatorItems rest := by
  obtain ⟨h, hn⟩ := run_eq_ok.mp hn
  rw [operandItems, if_neg hp, if_neg (by simp [hq]), if_neg hc, hn]

@[simp] theorem operatorItems_nil : operatorItems [] = [] := by
  rw [operatorItems]

theorem operatorItems_close (ts : List Token) : operatorItems (")" :: ts) = operatorItems ts := by
  rw [operatorItems, if_pos rfl]

theorem operatorItems_op {op : BinOp} (hn : nextOperator ts = .ok (some (op, rest))) :
    operatorItems ts = .op op :: operandItems rest := by
  cases ts with
  | nil => cases hn
  | cons first ts =>
    have hp : first ≠ ")" := by
      rintro rfl
      rw [nextOperator_close] at hn
      cases hn
    rw [operatorItems, if_neg hp]
    unfold nextOperator at hn
    rcases hr : readOperator (first :: ts) with err | _ | x
    · rw [hr] at hn
      cases hn
    · rw [hr] at hn
      cases hn
    · rw [hr] at hn
      cases hn
      rfl

theorem operatorItems_stray (hp : first ≠ ")") (hn : nextOperator (first :: ts) = .ok none) :
    operatorItems (first :: ts) = [.stray] := by
  rw [operatorItems, if_neg hp]
  unfold nextOperator at hn
  rcases hr : readOperator (first :: ts) with err | _ | x
  · rfl
  · rfl
  · rw [hr] at hn
    cases hn

theorem stray_not_mem_items (e : Expr) : .stray ∉ e.items := by
  induction e with
  | aggregate f a ih => simpa [items] using ih
  | binary op l r ihl ihr => simp [items, ihl, ihr]
  | _ => simp [items]

theorem items_ofChain (head : Expr) (tail : Tail) :
    (ofChain head tail).items = head.items ++ tail.flatMap fun x => .op x.1 :: x.2.items :=
  ofChain_append (f := items) (fun op => [Item.op op]) (fun _ _ _ => rfl) head tail

/-- What the phrase says from left to right. -/
def Phrase.items : Phrase → List Item
  | operand e => e.items
  | chain head tail => head.items ++ tail.flatMap fun x => .op x.1 :: x.2.items
  | expr e => e.items

theorem items_name {e : Expr} (hn : Reader.run readName (first :: ts) = .ok (e, rest)) :
    e.items = [.atom e] := by
  rcases run_readName_eq_ok hn with ⟨-, rfl⟩ | ⟨second, -, rfl⟩ <;> split <;> rfl

/-- A phrase says what its tokens say. -/
theorem Reads.items_eq {p : Phrase} (h : Reads p ts rest) :
    operandItems ts = p.items ++ operatorItems rest := by
  induction h with
  | paren _ ih =>
    rw [operandItems_paren, ih, operatorItems_close]
    rfl
  | quoted hq => exact operandItems_quoted hq _ _
  | call hf hq _ ih =>
    rw [operandItems_call hf hq, ih, operatorItems_close]
    rfl
  | name hp hq hc hn =>
    rw [operandItems_name hp hq hc hn]
    show _ = Expr.items _ ++ _
    rw [items_name hn]
    rfl
  | last _ _ ih =>
    rw [ih]
    simp [Phrase.items]
  | more _ hn _ ih ih' =>
    rw [ih, operatorItems_op hn, ih']
    simp [Phrase.items]
  | expr _ ih =>
    rw [ih]
    show _ = Expr.items _ ++ _
    rw [items_ofChain]
    rfl

end Items

/-! ### Texts that say something else -/

/-- The text behind an expression: closing parentheses to the end of the text, or up to a blank. -/
def Followed : Option Nat → List Char → Prop
  | some n, cs => cs = List.replicate n ')'
  | none, cs => ∃ n more, cs = List.replicate n ')' ++ ' ' :: more

theorem Followed.behind {behind : Option Nat} {cs : List Char} (h : Followed behind cs) :
    Behind behind cs := by
  cases behind with
  | some n => exact h
  | none =>
    obtain ⟨n, more, rfl⟩ := h
    cases n with
    | zero => exact breaks_cons (by decide) _
    | succ n => exact breaks_cons (by decide) _

theorem Followed.close {behind : Option Nat} {cs : List Char} (h : Followed behind cs) :
    Followed (behind.map (· + 1)) (')' :: cs) := by
  cases behind with
  | some n =>
    rw [Followed] at h
    subst h
    rfl
  | none =>
    obtain ⟨n, more, rfl⟩ := h
    exact ⟨n + 1, more, rfl⟩

/-- No operator begins with a blank or a closing parenthesis. -/
theorem operatorOfToken_eq_none {t : Token} {c : Char} {cs : List Char} (ht : t.toList = c :: cs)
    (hc : c = ' ' ∨ c = ')') : operatorOfToken t = none := by
  have hupper : t.toUpper.toList = c :: cs.map Char.toUpper := by
    have hcu : c.toUpper = c := by
      rcases hc with rfl | rfl <;> decide
    simp [String.toUpper, ht, hcu]
  have hne : ∀ k : String, k.toList.head? ≠ some c → t.toUpper ≠ k := by
    rintro k hk he
    rw [← he, hupper] at hk
    exact hk rfl
  unfold operatorOfToken
  split
  case h_12 => rfl
  all_goals
    next h => exact (hne _ (by rcases hc with rfl | rfl <;> decide) h).elim

/-- A token that begins with a blank or a closing parenthesis is stray, unless it is a closing
parenthesis and nothing else. -/
theorem operatorItems_content {c : Char} {cs : List Char} (hc : c = ' ' ∨ c = ')')
    (hp : c :: cs ≠ [')']) (ts : List Token) :
    operatorItems (String.ofList (c :: cs) :: ts) = [.stray] := by
  have hne : ∀ k : Token, k.toList ≠ c :: cs → String.ofList (c :: cs) ≠ k := by
    rintro k hk rfl
    exact hk String.toList_ofList
  have hnone : operatorOfToken (String.ofList (c :: cs)) = none :=
    operatorOfToken_eq_none String.toList_ofList hc
  refine operatorItems_stray (hne _ hp.symm) ?_
  rw [nextOperator_single (hne _ ?_) (hne _ ?_) (hne _ ?_), hnone]
  · rfl
  all_goals rcases hc with rfl | rfl <;> simp

/-- A quote that is taken for a name swallows what is behind it, and reading goes on only if that
was one closing parenthesis. -/
theorem behind_of_quote {q : Char} (hq : quotes.contains q = true) {behind : Option Nat}
    {cs : List Char} (hb : Followed behind cs) {ts : List Token}
    (ht : tokensOf (q :: cs) = q.toString :: ts) (hs : .stray ∉ operatorItems ts) :
    behind = some 1 := by
  have hne : ∀ c, c = ' ' ∨ c = ')' → (c != q) = true := by
    rintro c hc
    rw [bne_iff_ne]
    rintro rfl
    rcases hc with rfl | rfl <;> exact absurd hq (by decide)
  have hclose : ∀ n, ∀ c ∈ List.replicate n ')', (c != q) = true := by
    intro n c hc
    exact hne c (.inr (List.eq_of_mem_replicate hc))
  rw [tokensOf_quote hq] at ht
  cases behind with
  | none =>
    obtain ⟨n, more, rfl⟩ := hb
    have hcontent : ∀ (tail : List Char) (us : List Token),
        .stray ∈ operatorItems (String.ofList (List.replicate n ')' ++ ' ' :: tail) :: us) := by
      intro tail us
      cases n with
      | zero =>
        rw [List.replicate_zero, List.nil_append, operatorItems_content (.inl rfl) (by simp)]
        simp
      | succ n =>
        rw [List.replicate_succ, List.cons_append, operatorItems_content (.inr rfl) (by simp)]
        simp
    -- with a blank behind it the quote swallows the blank, whether or not another quote follows
    refine (hs ?_).elim
    split at ht
    · rw [List.takeWhile_append_of_pos (hclose n), List.takeWhile_cons, if_pos (hne _ (.inl rfl))]
        at ht
      cases ht
      exact hcontent _ _
    · cases ht
      exact hcontent _ _
  | some n =>
    rw [Followed] at hb
    subst hb
    have hmem : ¬ (List.replicate n ')').contains q = true := by
      rw [List.contains_iff_mem]
      intro hmem
      simpa using hclose n q hmem
    rw [if_neg hmem] at ht
    cases ht
    -- nothing behind the quote, one closing parenthesis, or more
    rcases n with _ | _ | n
    · have hempty : operatorOfToken "" = none := by decide +kernel
      have hnone : nextOperator [""] = .ok none := by
        rw [nextOperator_single (by decide) (by decide) (by decide), hempty]
        rfl
      refine (hs ?_).elim
      show Item.stray ∈ operatorItems [""]
      rw [operatorItems_stray (by decide) hnone, List.mem_singleton]
    · rfl
    · refine (hs ?_).elim
      rw [List.replicate_succ, operatorItems_content (.inr rfl) (by simp [List.replicate_succ])]
      simp

/-- An operator that is read as itself does not run together with the token behind it. -/
theorem head_ne_of_operatorItems {op : BinOp} {ts : List Token} {ys : List Item}
    (h : operatorItems (op.tokens ++ ts) = .op op :: ys) :
    (op = .lt → ts.head? ≠ some "=" ∧ ts.head? ≠ some ">") ∧
      (op = .gt → ts.head? ≠ some "=") := by
  have hread : ∀ (other : BinOp) {t : Token} {us : List Token}, ts = t :: us →
      nextOperator (op.tokens ++ t :: us) = .ok (some (other, us)) → other = op := by
    rintro other t us rfl hn
    rw [operatorItems_op hn] at h
    cases h
    rfl
  refine ⟨?_, ?_⟩
  · rintro rfl
    refine ⟨fun he => ?_, fun hg => ?_⟩
    · obtain ⟨us, rfl⟩ := List.head?_eq_some_iff.mp he
      exact absurd (hread .le rfl rfl) (by decide)
    · obtain ⟨us, rfl⟩ := List.head?_eq_some_iff.mp hg
      exact absurd (hread .ne rfl rfl) (by decide)
  · rintro rfl he
    obtain ⟨us, rfl⟩ := List.head?_eq_some_iff.mp he
    exact absurd (hread .ge rfl rfl) (by decide)

/-- The first token of an operand is the name that the operand begins with. -/
theorem head?_operand {e : Expr} (hr : e.Readable) {n : Token} (hn : e.leadingName = some n)
    {cs : List Char} (hb : Breaks cs) :
    (tokensOf ((parenthesizeIf e.isOperation e.print).toList ++ cs)).head? = some n := by
  cases e with
  | column name =>
    cases hn
    show (tokensOf (n.toList ++ cs)).head? = _
    rw [tokensOf_name hr.1 hb]
    rfl
  | qualified table name =>
    cases hn
    show (tokensOf ((qualified n name).print.toList ++ cs)).head? = _
    rw [print_qualified_append, tokensOf_name_mark hr.1 (by decide)]
    rfl
  | aggregate f a =>
    cases hn
    show (tokensOf ((aggregate n a).print.toList ++ cs)).head? = _
    rw [print_aggregate_append, tokensOf_name_mark hr.1 (by decide)]
    rfl
  | number raw => cases hn
  | text content => cases hn
  | binary op l r => cases hn

/-- What holds of an expression whose text says the same as it does, whatever stands behind it. -/
def KeepsNames (e : Expr) : Prop :=
  ∀ {behind : Option Nat} {cs : List Char}, Followed behind cs → ∀ {ys : List Item}, .stray ∉ ys →
    operandItems (tokensOf (e.print.toList ++ cs)) = e.items ++ ys →
      e.NoMerge ∧ e.QuotesHarmless behind

theorem KeepsNames.operand {e : Expr} (h : e.KeepsNames) {behind : Option Nat} {cs : List Char}
    (hb : Followed behind cs) {ys : List Item} (hys : .stray ∉ ys)
    (hi : operandItems (tokensOf ((parenthesizeIf e.isOperation e.print).toList ++ cs)) =
      e.items ++ ys) :
    e.NoMerge ∧ e.QuotesHarmless (if e.isOperation then behind.map (· + 1) else behind) := by
  cases ho : e.isOperation with
  | false =>
    rw [ho] at hi
    exact h hb hys hi
  | true =>
    rw [ho, parenthesizeIf_append, tokensOf_mark (by decide)] at hi
    exact h hb.close hys ((operandItems_paren _).symm.trans hi)

theorem keepsNames_qualified {table name : Token} (hr : (qualified table name).Readable) :
    (qualified table name).KeepsNames := by
  intro behind cs hb ys hys hi
  refine ⟨trivial, fun hq => ?_⟩
  obtain ⟨q, hc, rfl⟩ := isQuote_iff.mp hq
  obtain ⟨ts, hts⟩ : ∃ ts, tokensOf (q :: cs) = q.toString :: ts := by
    rw [tokensOf_quote hc]
    split <;> exact ⟨_, rfl⟩
  have hquote : q.toString.toList ++ cs = q :: cs := by simp
  have hname := run_readName_point table q.toString ts
  rw [hr.2.2.2] at hname
  have hatom := operandItems_name hr.2.1 hr.1.isQuote_eq_false (by simp) hname
  rw [print_qualified_append, tokensOf_name_mark hr.1 (by decide), hquote, hts] at hi
  cases hatom.symm.trans hi
  exact behind_of_quote hc hb hts hys

theorem keepsNames_binary {op : BinOp} {l r : Expr} (hl : l.Readable) (hr : r.Readable)
    (hkl : l.KeepsNames) (hkr : r.KeepsNames) : (binary op l r).KeepsNames := by
  intro behind cs hb ys hys hi
  have hitems : (binary op l r).items ++ ys = l.items ++ (.op op :: (r.items ++ ys)) := by
    simp [items]
  have hblank : ∀ ds, Followed none (' ' :: ds) := fun ds => ⟨0, ds, rfl⟩
  have hstray : .stray ∉ .op op :: (r.items ++ ys) := by
    simp [stray_not_mem_items r, hys]
  rw [print_binary_append, hitems] at hi
  obtain ⟨hml, hql⟩ := hkl.operand (hblank _) hstray hi
  -- the left operand is spelled out, so the text goes on with the operator
  rw [tokensOf_operand (tokensOf_print hl) (hblank _).behind hql, tokensOf_space,
    tokensOf_symbol, ((readsBack hl hml).operand _ (stops_tokens op _)).items_eq] at hi
  have hop := List.append_cancel_left hi
  -- the operator is read as itself, so what is left is the text of the right operand
  obtain ⟨hlt, hgt⟩ := head_ne_of_operatorItems hop
  rw [operatorItems_op (nextOperator_tokens hlt hgt)] at hop
  obtain ⟨hmr, hqr⟩ := hkr.operand hb hys (List.cons.inj hop).2
  refine ⟨⟨hml, hmr, ?_⟩, by simpa using hql, hqr⟩
  have hhead := fun n hn => head?_operand (n := n) hr hn hb.behind.breaks
  rintro (⟨ho, hn | hn⟩ | ⟨ho, hn⟩)
  · exact (hlt ho).1 (hhead _ hn)
  · exact (hlt ho).2 (hhead _ hn)
  · exact hgt ho (hhead _ hn)

/-- If the text of an expression says what the expression says, no name is lost in it. -/
theorem keepsNames {e : Expr} (hr : e.Readable) : e.KeepsNames := by
  induction e with
  | qualified table name => exact keepsNames_qualified hr
  | aggregate f a ih =>
    intro behind cs hb ys hys hi
    rw [print_aggregate_append, tokensOf_name_mark hr.1 (by decide)] at hi
    have ha := (operandItems_call hr.2.1 hr.1.isQuote_eq_false _).symm.trans hi
    exact ih hr.2.2 hb.close hys (List.cons.inj ha).2
  | binary op l r ihl ihr => exact keepsNames_binary hr.1 hr.2 (ihl hr.1) (ihr hr.2)
  | _ =>
    intro behind cs _ ys _ _
    exact ⟨trivial, trivial⟩

/-- **Which parsed expressions are read back.**  An expression that was parsed from a text is parsed
from its canonical text again exactly if no operator in it runs together with a name, and no name in
it is a quote, except in front of one closing parenthesis at the end of the text. -/
theorem parse_print_iff {text : String} {e : Expr} (h : Expr.parse text = .ok e) :
    Expr.parse e.print = .ok e ↔ e.NoMerge ∧ e.QuotesHarmless (some 0) := by
  have hr := readable_of_parse h
  constructor
  · intro hp
    have hi := (parse_eq_ok_iff.mp hp).items_eq
    have hb : Followed (some 0) [] := rfl
    have hi : operandItems (tokensOf (e.print.toList ++ [])) = e.items ++ [] := by
      rw [operatorItems_nil] at hi
      rw [List.append_nil]
      exact hi
    exact keepsNames hr hb (by simp) hi
  · rintro ⟨hm, hq⟩
    exact parse_print_of_noMerge hr hm hq

/-- A comparison with a column whose name is half an operator. -/
def comparedWithMark : Expr :=
  .binary .lt (.column "a") (.column "=")

/-- The column of a table whose name is a quote. -/
def quoteColumn : Expr :=
  .qualified "x" "'"

theorem parse_print_examples :
    (Expr.parse "a < (=)" = .ok comparedWithMark ∧
      Expr.parse comparedWithMark.print ≠ .ok comparedWithMark) ∧
    (Expr.parse "(x.')" = .ok quoteColumn ∧ Expr.parse quoteColumn.print ≠ .ok quoteColumn) ∧
    (Expr.parse "f(x.')" = .ok (.aggregate "f" quoteColumn) ∧
      Expr.parse (aggregate "f" quoteColumn).print = .ok (.aggregate "f" quoteColumn)) := by
  have hmark : Expr.parse "a < (=)" = .ok comparedWithMark :=
    eq_ok_of_toOption (by decide +kernel)
  have hquote : Expr.parse "(x.')" = .ok quoteColumn :=
    eq_ok_of_toOption (by decide +kernel)
  have hcall : Expr.parse "f(x.')" = .ok (.aggregate "f" quoteColumn) :=
    eq_ok_of_toOption (by decide +kernel)
  refine ⟨⟨hmark, fun h => ?_⟩, ⟨hquote, fun h => ?_⟩, hcall, ?_⟩
  · obtain ⟨⟨-, -, hm⟩, -⟩ := (parse_print_iff hmark).mp h
    exact hm (.inl ⟨rfl, .inl rfl⟩)
  · obtain ⟨-, hq⟩ := (parse_print_iff hquote).mp h
    cases hq (by decide)
  · exact (parse_print_iff hcall).mpr ⟨trivial, fun _ => rfl⟩

end QueryTrace.Expr

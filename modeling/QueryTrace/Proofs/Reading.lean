/-
What the readers of expressions read.

`Reads p ts rest` says that the phrase `p` stands at the front of the tokens `ts` and `rest` is left
behind it.  It has one rule for each way to go through the readers, and none for the ways to fail.

* `run_paren`, `run_call`, `run_quoted`, `run_name`, `run_chain`, `run_expr` — what a reader returns
  in terms of what the readers that it calls return;
* `read_eq_ok_iff` — the reader of expressions succeeds with what the rules derive, and with nothing
  else.

Design notes: the readers return proofs beside their values and call each other.  The relation is a
single one over three kinds of phrase, so that a fact about what is read has one induction.
-/
import Mathlib.Data.Nat.Init
import QueryTrace.Expr.Parser
import QueryTrace.Proofs.Outcome

namespace QueryTrace.Expr

/-! ### The readers one by one -/

/-- The operator at the front and the tokens behind it. -/
def nextOperator (ts : List Token) : Except SyntaxError (Option (BinOp × List Token)) :=
  (readOperator ts).map fun op => op.map fun x => (x.value, x.rest)

section Readers

variable {α : Type} {e : Expr} {es : List Expr} {ops : List BinOp} {first : Token}
  {ts rest : List Token}

theorem run_eq_ok {reader : Reader α} {a : α} :
    Reader.run reader ts = .ok (a, rest) ↔ ∃ h, reader ts = .ok ⟨a, rest, h⟩ := by
  unfold Reader.run
  cases reader ts with
  | error e => simp [Except.map]
  | ok x =>
    obtain ⟨b, us, h⟩ := x
    constructor
    · intro he
      cases he
      exact ⟨h, rfl⟩
    · rintro ⟨h', he⟩
      cases he
      rfl

theorem closeParen_eq_ok {failure : SyntaxError} {a b : α} {us vs : List Token}
    {hx : us.length < ts.length} {hy : vs.length < ts.length} :
    closeParen failure ⟨a, us, hx⟩ = .ok ⟨b, vs, hy⟩ ↔ a = b ∧ us = ")" :: vs := by
  by_cases h : us.head? = some ")"
  · obtain ⟨us, rfl⟩ := List.head?_eq_some_iff.mp h
    rw [closeParen]
    constructor
    · rintro ⟨⟩
      exact ⟨rfl, rfl⟩
    · rintro ⟨rfl, ⟨⟩⟩
      rfl
  · rw [closeParen]
    · constructor
      · rintro ⟨⟩
      · rintro ⟨-, rfl⟩
        exact (h rfl).elim
    · rintro value rest hrest ⟨⟩
      exact h rfl

theorem run_paren :
    Reader.run readOperand ("(" :: ts) = .ok (e, rest) ↔
      Reader.run readExpr ts = .ok (e, ")" :: rest) := by
  rw [run_eq_ok, run_eq_ok, readOperand, if_pos rfl]
  constructor
  · rintro ⟨h, hr⟩
    obtain ⟨⟨a, us, hus⟩, hi, hr⟩ := except_bind_eq_ok.mp hr
    obtain ⟨⟨b, vs, hvs⟩, hc, hr⟩ := except_bind_eq_ok.mp hr
    cases hr
    obtain ⟨rfl, rfl⟩ := closeParen_eq_ok.mp hc
    exact ⟨hus, hi⟩
  · rintro ⟨h, hr⟩
    have hlen : rest.length < ts.length := Nat.lt_trans (Nat.lt_succ_self _) h
    have hc : closeParen .unclosedParen ⟨e, ")" :: rest, h⟩ = .ok ⟨e, rest, hlen⟩ :=
      closeParen_eq_ok.mpr ⟨rfl, rfl⟩
    refine ⟨Nat.lt_succ_of_lt hlen, ?_⟩
    exact except_bind_eq_ok.mpr ⟨_, hr, except_bind_eq_ok.mpr ⟨_, hc, rfl⟩⟩

theorem run_call {f : Token} (hf : f ≠ "(") (hq : Token.isQuote f = false) :
    Reader.run readOperand (f :: "(" :: ts) = .ok (e, rest) ↔
      ∃ a, e = .aggregate f a ∧ Reader.run readExpr ts = .ok (a, ")" :: rest) := by
  simp only [run_eq_ok]
  rw [readOperand, if_neg hf, if_neg (by simp [hq]), List.head?_cons, if_pos rfl]
  constructor
  · rintro ⟨h, hr⟩
    obtain ⟨⟨a, us, hus⟩, hi, hr⟩ := except_bind_eq_ok.mp hr
    obtain ⟨⟨b, vs, hvs⟩, hc, hr⟩ := except_bind_eq_ok.mp hr
    cases hr
    obtain ⟨rfl, rfl⟩ := closeParen_eq_ok.mp hc
    exact ⟨a, rfl, hus, hi⟩
  · rintro ⟨a, rfl, h, hr⟩
    have hlen : rest.length < ts.length := Nat.lt_trans (Nat.lt_succ_self _) h
    have hc : closeParen .aggregateArguments ⟨a, ")" :: rest, h⟩ = .ok ⟨a, rest, hlen⟩ :=
      closeParen_eq_ok.mpr ⟨rfl, rfl⟩
    refine ⟨Nat.lt_succ_of_lt (Nat.lt_succ_of_lt hlen), ?_⟩
    exact except_bind_eq_ok.mpr ⟨_, hr, except_bind_eq_ok.mpr ⟨_, hc, rfl⟩⟩

theorem run_quoted {q : Token} (hq : Token.isQuote q = true) :
    Reader.run readOperand (q :: ts) = .ok (e, rest) ↔
      ∃ content, ts = content :: q :: rest ∧ e = .text content := by
  have hp : q ≠ "(" := by
    rintro rfl
    exact absurd hq (by decide)
  rw [run_eq_ok, readOperand, if_neg hp, if_pos hq]
  cases ts with
  | nil => simp [readQuoted]
  | cons content ts =>
    cases ts with
    | nil => simp [readQuoted]
    | cons close us =>
      by_cases hc : close = q
      · subst hc
        rw [readQuoted, if_pos rfl]
        constructor
        · rintro ⟨-, ⟨⟩⟩
          exact ⟨content, rfl, rfl⟩
        · rintro ⟨c, h, rfl⟩
          cases h
          exact ⟨Nat.lt_succ_of_lt (Nat.lt_succ_of_lt (Nat.lt_succ_self _)), rfl⟩
      · rw [readQuoted, if_neg hc]
        constructor
        · rintro ⟨_, ⟨⟩⟩
        · rintro ⟨c, h, -⟩
          cases h
          exact (hc rfl).elim

theorem run_name (hp : first ≠ "(") (hq : Token.isQuote first = false)
    (hc : ts.head? ≠ some "(") :
    Reader.run readOperand (first :: ts) = Reader.run readName (first :: ts) := by
  unfold Reader.run
  rw [readOperand, if_neg hp, if_neg (by simp [hq]), if_neg hc]

theorem run_chain :
    Reader.run readChain ts = .ok ((es, ops), rest) ↔
      ∃ e mid, Reader.run readOperand ts = .ok (e, mid) ∧
        ((nextOperator mid = .ok none ∧ rest = mid ∧ es = [e] ∧ ops = []) ∨
          ∃ op mid' es' ops', nextOperator mid = .ok (some (op, mid')) ∧
            Reader.run readChain mid' = .ok ((es', ops'), rest) ∧
            es = e :: es' ∧ ops = op :: ops') := by
  simp only [run_eq_ok]
  rw [readChain]
  constructor
  · rintro ⟨h, hr⟩
    obtain ⟨⟨e, mid, hmid⟩, ho, hr⟩ := except_bind_eq_ok.mp hr
    obtain ⟨found, hf, hr⟩ := except_bind_eq_ok.mp hr
    refine ⟨e, mid, ⟨hmid, ho⟩, ?_⟩
    unfold nextOperator
    rw [hf]
    cases found with
    | none =>
      cases hr
      exact .inl ⟨rfl, rfl, rfl, rfl⟩
    | some op =>
      obtain ⟨⟨⟨es', ops'⟩, rest', hrest⟩, hm, hr⟩ := except_bind_eq_ok.mp hr
      cases hr
      exact .inr ⟨op.value, op.rest, es', ops', rfl, ⟨hrest, hm⟩, rfl, rfl⟩
  · rintro ⟨e, mid, ⟨hmid, ho⟩, hn⟩
    unfold nextOperator at hn
    rw [ho, except_ok_bind]
    cases hf : readOperator mid with
    | error err =>
      rw [hf] at hn
      rcases hn with ⟨hn, -⟩ | ⟨op, mid', es', ops', hn, -⟩ <;> cases hn
    | ok found =>
      rw [hf] at hn
      rcases hn with ⟨hn, rfl, rfl, rfl⟩ | ⟨op, mid', es', ops', hn, ⟨hrest, hm⟩, rfl, rfl⟩
      · cases found with
        | none => exact ⟨hmid, rfl⟩
        | some x => cases hn
      · cases found with
        | none => cases hn
        | some x =>
          cases hn
          refine ⟨Nat.lt_trans hrest (Nat.lt_trans x.shorter hmid), ?_⟩
          show (readChain x.rest >>= _) = _
          rw [hm]
          rfl

theorem ofAlternating_eq_ok : ofAlternating es ops = .ok e ↔ assemble es ops = some e := by
  unfold ofAlternating
  cases assemble es ops <;> simp

theorem run_expr :
    Reader.run readExpr ts = .ok (e, rest) ↔
      ∃ es ops, Reader.run readChain ts = .ok ((es, ops), rest) ∧ assemble es ops = some e := by
  simp only [run_eq_ok, ← ofAlternating_eq_ok]
  rw [readExpr]
  constructor
  · rintro ⟨h, hr⟩
    obtain ⟨⟨⟨es, ops⟩, us, hus⟩, hc, hr⟩ := except_bind_eq_ok.mp hr
    obtain ⟨e', ha, hr⟩ := except_bind_eq_ok.mp hr
    cases hr
    exact ⟨es, ops, ⟨hus, hc⟩, ha⟩
  · rintro ⟨es, ops, ⟨h, hc⟩, ha⟩
    refine ⟨h, ?_⟩
    rw [hc, except_ok_bind, ha]
    rfl

theorem run_shorter {reader : Reader α} {a : α} (h : Reader.run reader ts = .ok (a, rest)) :
    rest.length < ts.length := by
  obtain ⟨hlen, -⟩ := run_eq_ok.mp h
  exact hlen

theorem nextOperator_shorter {op : BinOp} (h : nextOperator ts = .ok (some (op, rest))) :
    rest.length < ts.length := by
  unfold nextOperator at h
  rcases hr : readOperator ts with err | _ | x
  · rw [hr] at h
    cases h
  · rw [hr] at h
    cases h
  · rw [hr] at h
    cases h
    exact x.shorter

end Readers

/-! ### The rules -/

/-- What can be read. -/
inductive Phrase where
  | operand (e : Expr)
  /-- Operands and operators by turns. -/
  | chain (head : Expr) (tail : Tail)
  | expr (e : Expr)

/-- The phrase stands at the front of the first list of tokens and leaves the second. -/
inductive Reads : Phrase → List Token → List Token → Prop where
  | paren {e : Expr} {ts rest : List Token} (inner : Reads (.expr e) ts (")" :: rest)) :
      Reads (.operand e) ("(" :: ts) rest
  | quoted {q content : Token} {rest : List Token} (hq : Token.isQuote q = true) :
      Reads (.operand (.text content)) (q :: content :: q :: rest) rest
  | call {f : Token} {a : Expr} {ts rest : List Token} (hf : f ≠ "(")
      (hq : Token.isQuote f = false) (inner : Reads (.expr a) ts (")" :: rest)) :
      Reads (.operand (.aggregate f a)) (f :: "(" :: ts) rest
  | name {first : Token} {e : Expr} {ts rest : List Token} (hp : first ≠ "(")
      (hq : Token.isQuote first = false) (hc : ts.head? ≠ some "(")
      (hn : Reader.run readName (first :: ts) = .ok (e, rest)) :
      Reads (.operand e) (first :: ts) rest
  | last {e : Expr} {ts rest : List Token} (operand : Reads (.operand e) ts rest)
      (hn : nextOperator rest = .ok none) : Reads (.chain e []) ts rest
  | more {e e' : Expr} {op : BinOp} {tail : Tail} {ts mid mid' rest : List Token}
      (operand : Reads (.operand e) ts mid) (hn : nextOperator mid = .ok (some (op, mid')))
      (chain : Reads (.chain e' tail) mid' rest) : Reads (.chain e ((op, e') :: tail)) ts rest
  | expr {head : Expr} {tail : Tail} {ts rest : List Token}
      (chain : Reads (.chain head tail) ts rest) : Reads (.expr (ofChain head tail)) ts rest

/-- Does the reader for the phrase return it? -/
def Phrase.IsRead : Phrase → List Token → List Token → Prop
  | operand e, ts, rest => Reader.run readOperand ts = .ok (e, rest)
  | chain head tail, ts, rest =>
    Reader.run readChain ts = .ok ((head :: tail.map (·.2), tail.map (·.1)), rest)
  | expr e, ts, rest => Reader.run readExpr ts = .ok (e, rest)

theorem assemble_chain (head : Expr) (tail : Tail) :
    assemble (head :: tail.map (·.2)) (tail.map (·.1)) = some (ofChain head tail) := by
  rw [assemble, if_pos (by simp), List.zip_map']
  simp

theorem Reads.isRead {p : Phrase} {ts rest : List Token} (h : Reads p ts rest) :
    p.IsRead ts rest := by
  induction h with
  | paren _ ih => exact run_paren.mpr ih
  | quoted hq => exact (run_quoted hq).mpr ⟨_, rfl, rfl⟩
  | call hf hq _ ih => exact (run_call hf hq).mpr ⟨_, rfl, ih⟩
  | name hp hq hc hn => exact (run_name hp hq hc).trans hn
  | last _ hn ih => exact run_chain.mpr ⟨_, _, ih, .inl ⟨hn, rfl, rfl, rfl⟩⟩
  | more _ hn _ ih ih' => exact run_chain.mpr ⟨_, _, ih, .inr ⟨_, _, _, _, hn, ih', rfl, rfl⟩⟩
  | expr _ ih => exact run_expr.mpr ⟨_, _, ih, assemble_chain _ _⟩

/-- An operand is read by the rules if the expressions inside it are. -/
theorem reads_operand {ts : List Token}
    (ih : ∀ us, us.length < ts.length → ∀ e rest, Reader.run readExpr us = .ok (e, rest) →
      Reads (.expr e) us rest) {e : Expr} {rest : List Token}
    (h : Reader.run readOperand ts = .ok (e, rest)) : Reads (.operand e) ts rest := by
  cases ts with
  | nil =>
    obtain ⟨h, -⟩ := run_eq_ok.mp h
    cases h
  | cons first ts =>
    by_cases hp : first = "("
    · subst hp
      exact .paren (ih ts (by simp) _ _ (run_paren.mp h))
    -- the first token decides which rule it is, and for a name the second does
    · cases hq : Token.isQuote first with
      | true =>
        obtain ⟨content, rfl, rfl⟩ := (run_quoted hq).mp h
        exact .quoted hq
      | false =>
        by_cases hc : ts.head? = some "("
        · obtain ⟨us, rfl⟩ := List.head?_eq_some_iff.mp hc
          obtain ⟨a, rfl, ha⟩ := (run_call hp hq).mp h
          have hlen : us.length < (first :: "(" :: us).length :=
            Nat.lt_succ_of_lt (Nat.lt_succ_self _)
          exact .call hp hq (ih us hlen _ _ ha)
        · exact .name hp hq hc ((run_name hp hq hc).symm.trans h)

/-- By induction on the number of tokens: a chain is read through its operands, and an operand
through the expressions inside it, which have fewer tokens. -/
theorem reads_chain {ts : List Token} {es : List Expr} {ops : List BinOp} {rest : List Token}
    (h : Reader.run readChain ts = .ok ((es, ops), rest)) :
    ∃ head tail, es = head :: tail.map (·.2) ∧ ops = tail.map (·.1) ∧
      Reads (.chain head tail) ts rest := by
  induction hn : ts.length using Nat.strongRecOn generalizing ts es ops rest with
  | _ n ih =>
    subst hn
    obtain ⟨e, mid, ho, hm⟩ := run_chain.mp h
    have hmid := run_shorter ho
    have ho : Reads (.operand e) ts mid := by
      refine reads_operand (fun us hus e' rest' he => ?_) ho
      obtain ⟨es', ops', hc, ha⟩ := run_expr.mp he
      obtain ⟨head, tail, rfl, rfl, hr⟩ := ih us.length hus hc rfl
      rw [assemble_chain] at ha
      cases ha
      exact .expr hr
    rcases hm with ⟨hm, rfl, rfl, rfl⟩ | ⟨op, mid', es', ops', hm, hc, rfl, rfl⟩
    · exact ⟨e, [], rfl, rfl, .last ho hm⟩
    · have hlen := nextOperator_shorter hm
      obtain ⟨head, tail, rfl, rfl, hr⟩ := ih mid'.length (by omega) hc rfl
      exact ⟨e, (op, head) :: tail, rfl, rfl, .more ho hm hr⟩

/-- The reader of expressions reads exactly what the rules derive. -/
theorem read_eq_ok_iff {ts rest : List Token} {e : Expr} :
    Expr.read ts = .ok (e, rest) ↔ Reads (.expr e) ts rest := by
  constructor
  · intro h
    obtain ⟨es, ops, hc, ha⟩ := run_expr.mp h
    obtain ⟨head, tail, rfl, rfl, hr⟩ := reads_chain hc
    rw [assemble_chain] at ha
    cases ha
    exact .expr hr
  · exact Reads.isRead

/-- A text is parsed if one expression takes up all of its tokens. -/
theorem parse_eq_ok_iff {text : String} {e : Expr} :
    Expr.parse text = .ok e ↔ Reads (.expr e) (Token.scan text) [] := by
  rw [← read_eq_ok_iff]
  unfold parse
  rcases Expr.read (Token.scan text) with err | ⟨e', rest⟩
  · simp
  · cases rest with
    | nil => simp [pure, Except.pure]
    | cons t ts => simp

end QueryTrace.Expr

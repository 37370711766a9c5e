/-
The readers as equations.

For each reader that calls others: what it returns, errors included, in terms of what they return.
Neither side carries the bound on what is left.

* `run_readOperand`, `run_readChain`, `run_readExpr` — expressions;
* `run_aliased`, `run_sortKey`, `run_commaList` — what the clauses of a query are made of.

Design notes: where only success matters, the rules of `Reads` and the statements beside them are
shorter.  These equations are for facts about errors.
-/
import QueryTrace.Proofs.Spelling
import QueryTrace.Statement.Parser

namespace QueryTrace

open Token

/-! ### Expressions -/

namespace Expr

variable {α : Type} {ts : List Token}

/-- What was read with the closing parenthesis behind it. -/
def closed (failure : SyntaxError) (x : α × List Token) :
    Except SyntaxError (α × List Token) :=
  if x.2.head? = some ")" then .ok (x.1, x.2.tail) else .error failure

theorem closeParen_eq (failure : SyntaxError) (x : Taken α ts) :
    (closeParen failure x).map (fun y => (y.value, y.rest)) = closed failure (x.value, x.rest) := by
  obtain ⟨a, us, h⟩ := x
  by_cases hc : us.head? = some ")"
  · obtain ⟨us, rfl⟩ := List.head?_eq_some_iff.mp hc
    rfl
  · rw [closed, if_neg hc, closeParen]
    · rfl
    · rintro value rest hr ⟨⟩
      exact hc rfl

theorem run_readOperand (first : Token) (ts : List Token) :
    Reader.run readOperand (first :: ts) =
      if first = "(" then Reader.run readExpr ts >>= closed .unclosedParen
      else if isQuote first then Reader.run readQuoted (first :: ts)
      else if ts.head? = some "(" then do
        let inner ← Reader.run readExpr ts.tail
        let (argument, rest) ← closed .aggregateArguments inner
        return (.aggregate first argument, rest)
      else Reader.run readName (first :: ts) := by
  unfold Reader.run
  rw [readOperand]
  by_cases hp : first = "("
  · rw [if_pos hp, if_pos hp]
    cases readExpr ts with
    | error err => rfl
    | ok x =>
      show Except.map _ (closeParen _ x >>= _) = closed _ (x.value, x.rest)
      rw [← closeParen_eq]
      cases closeParen SyntaxError.unclosedParen x <;> rfl
  rw [if_neg hp, if_neg hp]
  by_cases hq : isQuote first = true
  · rw [if_pos hq, if_pos hq]
  rw [if_neg hq, if_neg hq]
  by_cases hc : ts.head? = some "("
  · rw [if_pos hc, if_pos hc]
    cases readExpr ts.tail with
    | error err => rfl
    | ok x =>
      show Except.map _ (closeParen _ x >>= _) = closed _ (x.value, x.rest) >>= _
      rw [← closeParen_eq]
      cases closeParen SyntaxError.aggregateArguments x <;> rfl
  · rw [if_neg hc, if_neg hc]

theorem run_readChain (ts : List Token) :
    Reader.run readChain ts = do
      let (e, mid) ← Reader.run readOperand ts
      match ← nextOperator mid with
      | none => return (([e], []), mid)
      | some (op, mid) =>
        let ((es, ops), rest) ← Reader.run readChain mid
        return ((e :: es, op :: ops), rest) := by
  unfold Reader.run nextOperator
  rw [readChain]
  cases readOperand ts with
  | error err => rfl
  | ok operand =>
    show _ = (readOperator operand.rest).map _ >>= _
    simp only [except_ok_bind]
    cases readOperator operand.rest with
    | error err => rfl
    | ok op =>
      cases op with
      | none => rfl
      | some op =>
        show Except.map _ (readChain op.rest >>= _) = (readChain op.rest).map _ >>= _
        cases readChain op.rest <;> rfl

theorem run_readExpr (ts : List Token) :
    Reader.run readExpr ts = Reader.run readChain ts >>= fun x =>
      match assemble x.1.1 x.1.2 with
      | some e => .ok (e, x.2)
      | none => .error .notAlternating := by
  unfold Reader.run
  rw [readExpr]
  cases readChain ts with
  | error err => rfl
  | ok chain =>
    show Except.map _ (_ >>= _) = _ >>= _
    dsimp only [Except.map]
    rw [except_ok_bind, except_ok_bind, ofAlternating]
    dsimp only
    cases assemble chain.value.1 chain.value.2 <;> rfl

/-! ### Errors

Only a whole text can be refused for a token behind an expression; readers leave what they do not
read. -/

/-- Is it refused for a token behind an expression? -/
def Trails (x : Except SyntaxError α) : Prop :=
  ∃ t, x = .error (.trailing t)

theorem not_trails_bind {β : Type} {x : Except SyntaxError α} {f : α → Except SyntaxError β}
    (hx : ¬ Trails x) (hf : ∀ a, x = .ok a → ¬ Trails (f a)) : ¬ Trails (x >>= f) := by
  cases x with
  | error err =>
    rintro ⟨t, he⟩
    cases he
    exact hx ⟨t, rfl⟩
  | ok a => exact hf a rfl

theorem not_trails_ok (a : α) : ¬ Trails (.ok a) := by
  rintro ⟨t, ⟨⟩⟩

theorem not_trails_closed {failure : SyntaxError} (h : ∀ t, failure ≠ .trailing t)
    (x : α × List Token) : ¬ Trails (closed failure x) := by
  rintro ⟨t, he⟩
  rw [closed] at he
  split at he
  · cases he
  · cases he
    exact h t rfl

theorem not_trails_nextOperator (ts : List Token) : ¬ Trails (nextOperator ts) := by
  rintro ⟨t, he⟩
  unfold nextOperator readOperator at he
  split at he <;> cases he

theorem not_trails_readQuoted (q : Token) (ts : List Token) :
    ¬ Trails (Reader.run readQuoted (q :: ts)) := by
  match ts with
  | [] => rintro ⟨t, ⟨⟩⟩
  | [_] => rintro ⟨t, ⟨⟩⟩
  | content :: close :: rest =>
    rw [Reader.run, readQuoted]
    by_cases hc : close = q
    · rw [if_pos hc]
      exact not_trails_ok _
    · rw [if_neg hc]
      rintro ⟨t, ⟨⟩⟩

theorem not_trails_readName (first : Token) (ts : List Token) :
    ¬ Trails (Reader.run readName (first :: ts)) := by
  by_cases hp : ts.head? = some "."
  · obtain ⟨us, rfl⟩ := List.head?_eq_some_iff.mp hp
    cases us with
    | nil => rintro ⟨t, ⟨⟩⟩
    | cons second us =>
      rw [run_readName_point]
      exact not_trails_ok _
  · rw [run_readName_alone first hp]
    exact not_trails_ok _

theorem not_trails_readOperand (ih : ∀ us : List Token, us.length < ts.length →
    ¬ Trails (Reader.run readExpr us)) : ¬ Trails (Reader.run readOperand ts) := by
  cases ts with
  | nil =>
    rw [Reader.run, readOperand]
    rintro ⟨t, ⟨⟩⟩
  | cons first ts =>
    rw [run_readOperand]
    split
    · exact not_trails_bind (ih ts (Nat.lt_succ_self _)) fun x _ =>
        not_trails_closed (by rintro _ ⟨⟩) x
    split
    · exact not_trails_readQuoted first ts
    split
    · next hc =>
      obtain ⟨us, rfl⟩ := List.head?_eq_some_iff.mp hc
      refine not_trails_bind (ih us (Nat.lt_succ_of_lt (Nat.lt_succ_self _))) fun x _ => ?_
      exact not_trails_bind (not_trails_closed (by rintro _ ⟨⟩) x) fun _ _ => not_trails_ok _
    · exact not_trails_readName first ts

theorem not_trails_expr_of_chain (h : ¬ Trails (Reader.run readChain ts)) :
    ¬ Trails (Reader.run readExpr ts) := by
  rw [run_readExpr]
  refine not_trails_bind h fun x _ => ?_
  cases assemble x.1.1 x.1.2 with
  | none => rintro ⟨t, ⟨⟩⟩
  | some e => exact not_trails_ok _

theorem not_trails_readChain (ts : List Token) : ¬ Trails (Reader.run readChain ts) := by
  induction hn : ts.length using Nat.strongRecOn generalizing ts with
  | _ n ih =>
    subst hn
    have ho := not_trails_readOperand fun us hus =>
      not_trails_expr_of_chain (ih us.length hus us rfl)
    rw [run_readChain]
    refine not_trails_bind ho fun ⟨e, mid⟩ hmid => ?_
    refine not_trails_bind (not_trails_nextOperator mid) fun op hop => ?_
    cases op with
    | none => exact not_trails_ok _
    | some x =>
      have hshort := Nat.lt_trans (nextOperator_shorter hop) (run_shorter hmid)
      exact not_trails_bind (ih x.2.length hshort x.2 rfl) fun _ _ => not_trails_ok _

/-- The reader of expressions never fails for what it leaves. -/
theorem not_trails_readExpr (ts : List Token) : ¬ Trails (Reader.run readExpr ts) :=
  not_trails_expr_of_chain (not_trails_readChain ts)

end Expr

/-! ### Items and lists -/

section Items

variable {α : Type}

theorem run_aliased (item : Reader α) (ts : List Token) :
    Reader.run (Reader.aliased item) ts = do
      let (x, mid) ← Reader.run item ts
      if nextIsKeyword "AS" mid then
        let (name, rest) ← Reader.run Reader.token mid.tail
        return (⟨x, some name⟩, rest)
      else return (⟨x, none⟩, mid) := by
  unfold Reader.run Reader.aliased
  cases item ts with
  | error err => rfl
  | ok x =>
    simp only [except_ok_bind, Except.map]
    cases nextIsKeyword "AS" x.rest with
    | false => rfl
    | true =>
      simp only [if_true]
      cases Reader.token x.rest.tail <;> rfl

theorem run_sortKey (ts : List Token) :
    Reader.run SortKey.read ts = do
      let (e, mid) ← Reader.run Expr.readExpr ts
      if nextIsKeyword "DESC" mid then return (⟨e, false⟩, mid.tail)
      else if nextIsKeyword "ASC" mid then return (⟨e, true⟩, mid.tail)
      else return (⟨e, true⟩, mid) := by
  unfold Reader.run SortKey.read
  cases Expr.readExpr ts with
  | error err => rfl
  | ok x =>
    simp only [except_ok_bind, Except.map]
    cases nextIsKeyword "DESC" x.rest with
    | true => rfl
    | false => cases nextIsKeyword "ASC" x.rest <;> rfl

theorem run_commaList (item : Reader α) (ts : List Token) :
    Reader.run (Reader.commaList item) ts = do
      let (x, mid) ← Reader.run item ts
      if mid.head? = some "," then
        let (more, rest) ← Reader.run (Reader.commaList item) mid.tail
        return (x :: more, rest)
      else return ([x], mid) := by
  unfold Reader.run
  rw [Reader.commaList]
  cases item ts with
  | error err => rfl
  | ok x =>
    simp only [except_ok_bind, Except.map]
    by_cases hc : x.rest.head? = some ","
    · rw [if_pos hc, if_pos hc]
      cases Reader.commaList item x.rest.tail <;> rfl
    · rw [if_neg hc, if_neg hc]
      rfl

end Items

end QueryTrace

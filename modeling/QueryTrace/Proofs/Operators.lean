/-
Operators at the front of tokens.

An operator is one token, or two.  Three tokens may be the first of two, so for these the token
behind is looked at as well, and no other token ever is.

* `BinOp.Spells` — the spellings of an operator;
* `OperatorAt`, **`operatorAt`** — the four ways in which tokens may begin, with what is read then;
* `nextOperator_eq_some`, `spells_of_nextOperator` — the tokens of an operator that was read;
* `nextOperator_none_of_head` — that there is none is seen from the first token.
-/
import QueryTrace.Proofs.Reading

namespace QueryTrace

/-- The operators of two tokens, and those of one token that may be the first of two. -/
def BinOp.apart : List (BinOp × List Token) :=
  [(.ne, ["!", "="]), (.ne, ["<", ">"]), (.le, ["<", "="]), (.ge, [">", "="]), (.lt, ["<"]),
   (.gt, [">"])]

/-- Are the tokens one of the spellings of the operator? -/
def BinOp.Spells (op : BinOp) (ts : List Token) : Prop :=
  (op, ts) ∈ apart ∨ ∃ t, ts = [t] ∧ Expr.operatorOfToken t = some op

namespace Expr

/-- Only three tokens can be the first half of an operator. -/
theorem nextOperator_single {t : Token} (hn : t ≠ "!") (hl : t ≠ "<") (hg : t ≠ ">")
    (ts : List Token) : nextOperator (t :: ts) = .ok ((operatorOfToken t).map (·, ts)) := by
  rw [nextOperator, readOperator]
  · cases operatorOfToken t <;> rfl
  all_goals simp_all

theorem nextOperator_exclamation {ts : List Token} (h : ts.head? ≠ some "=") :
    nextOperator ("!" :: ts) = .error .loneExclamation := by
  rw [nextOperator, readOperator]
  · rfl
  · rintro rest rfl
    exact h rfl

theorem nextOperator_lt {ts : List Token} (he : ts.head? ≠ some "=") (hg : ts.head? ≠ some ">") :
    nextOperator ("<" :: ts) = .ok (some (.lt, ts)) := by
  rw [nextOperator, readOperator]
  · rfl
  · intro rest hts
    exact hg (by rw [hts]; rfl)
  · intro rest hts
    exact he (by rw [hts]; rfl)

theorem nextOperator_gt {ts : List Token} (he : ts.head? ≠ some "=") :
    nextOperator (">" :: ts) = .ok (some (.gt, ts)) := by
  rw [nextOperator, readOperator]
  · rfl
  · intro rest hts
    exact he (by rw [hts]; rfl)

/-! ### How tokens begin -/

/-- The ways in which tokens may begin: with an operator of two tokens or of one, with half an
operator, or with no operator.  What is read stays the same with other tokens behind those that
decide. -/
inductive OperatorAt (t : Token) : List Token → Prop where
  | double {m : Token} {op : BinOp} {ts : List Token} (hs : (op, [t, m]) ∈ BinOp.apart)
      (h : ∀ us, nextOperator (t :: m :: us) = .ok (some (op, us))) : OperatorAt t (m :: ts)
  | single {op : BinOp} {ts : List Token} (hs : op.Spells [t])
      (h : ∀ us : List Token, us.head? = ts.head? →
        nextOperator (t :: us) = .ok (some (op, us))) : OperatorAt t ts
  | lone {ts : List Token} (ht : t = "!")
      (h : ∀ us : List Token, us.head? = ts.head? →
        nextOperator (t :: us) = .error .loneExclamation) : OperatorAt t ts
  | none {ts : List Token} (h : ∀ us, nextOperator (t :: us) = .ok none) : OperatorAt t ts

/-- **Tokens begin in one of these ways.** -/
theorem operatorAt (t : Token) (ts : List Token) : OperatorAt t ts := by
  by_cases hx : t = "!"
  · subst hx
    by_cases he : ts.head? = some "="
    · obtain ⟨us, rfl⟩ := List.head?_eq_some_iff.mp he
      exact .double (show (BinOp.ne, ["!", "="]) ∈ BinOp.apart by decide) fun _ => rfl
    · exact .lone rfl fun us hu => nextOperator_exclamation (hu ▸ he)
  by_cases hl : t = "<"
  · subst hl
    by_cases he : ts.head? = some "="
    · obtain ⟨us, rfl⟩ := List.head?_eq_some_iff.mp he
      exact .double (show (BinOp.le, ["<", "="]) ∈ BinOp.apart by decide) fun _ => rfl
    by_cases hg : ts.head? = some ">"
    · obtain ⟨us, rfl⟩ := List.head?_eq_some_iff.mp hg
      exact .double (show (BinOp.ne, ["<", ">"]) ∈ BinOp.apart by decide) fun _ => rfl
    exact .single (.inl (by decide)) fun us hu => nextOperator_lt (hu ▸ he) (hu ▸ hg)
  by_cases hg : t = ">"
  · subst hg
    by_cases he : ts.head? = some "="
    · obtain ⟨us, rfl⟩ := List.head?_eq_some_iff.mp he
      exact .double (show (BinOp.ge, [">", "="]) ∈ BinOp.apart by decide) fun _ => rfl
    · exact .single (.inl (by decide)) fun us hu => nextOperator_gt (hu ▸ he)
  cases ho : operatorOfToken t with
  | none =>
    refine .none fun us => ?_
    rw [nextOperator_single hx hl hg, ho]
    rfl
  | some op =>
    refine .single (.inr ⟨t, rfl, ho⟩) fun us _ => ?_
    rw [nextOperator_single hx hl hg, ho]
    rfl

variable {op : BinOp} {t : Token} {ts rest : List Token}

/-- An operator is one token, or two of which the second is a mark. -/
theorem nextOperator_eq_some (h : nextOperator (t :: ts) = .ok (some (op, rest))) :
    rest = ts ∨ ts = "=" :: rest ∨ ts = ">" :: rest := by
  cases operatorAt t ts with
  | double hs hop =>
    rw [hop] at h
    cases h
    have hall : ∀ x ∈ BinOp.apart, x.2.tail ∈ [[], ["="], [">"]] := by decide
    have hm := hall _ hs
    right
    simpa using hm
  | single _ hop =>
    rw [hop ts rfl] at h
    cases h
    exact .inl rfl
  | lone _ hop =>
    rw [hop ts rfl] at h
    cases h
  | none hop =>
    rw [hop ts] at h
    cases h

/-- An operator that was read is spelled by its tokens, and the first token behind them decides
that there are no more. -/
theorem spells_of_nextOperator (h : nextOperator ts = .ok (some (op, rest))) :
    ∃ os, op.Spells os ∧ os ≠ [] ∧ ts = os ++ rest ∧
      ∀ us, us.head? = rest.head? → nextOperator (os ++ us) = .ok (some (op, us)) := by
  cases ts with
  | nil => cases h
  | cons t ts =>
    cases operatorAt t ts with
    | @double m _ _ hs hop =>
      rw [hop] at h
      cases h
      exact ⟨[t, m], .inl hs, List.cons_ne_nil _ _, rfl, fun us _ => hop us⟩
    | single hs hop =>
      rw [hop ts rfl] at h
      cases h
      exact ⟨[t], hs, List.cons_ne_nil _ _, rfl, hop⟩
    | lone _ hop =>
      rw [hop ts rfl] at h
      cases h
    | none hop =>
      rw [hop ts] at h
      cases h

/-- That there is no operator is seen from the first token. -/
theorem nextOperator_none_of_head {us : List Token} (h : us.head? = ts.head?)
    (hn : nextOperator ts = .ok none) : nextOperator us = .ok none := by
  cases ts with
  | nil =>
    obtain rfl := List.head?_eq_none_iff.mp h
    rfl
  | cons t ts =>
    obtain ⟨us, rfl⟩ := List.head?_eq_some_iff.mp h
    cases operatorAt t ts with
    | double _ hop =>
      rw [hop] at hn
      cases hn
    | single _ hop =>
      rw [hop ts rfl] at hn
      cases hn
    | lone _ hop =>
      rw [hop ts rfl] at hn
      cases hn
    | none hop => exact hop us

end Expr

end QueryTrace

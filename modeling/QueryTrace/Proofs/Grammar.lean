/-
What the readers of statements read.

A statement is read by clauses, a clause by its items, and the items are expressions, names and sort
keys.  For each reader there is one statement here that says when it succeeds, with what value, and
what it leaves.

* `ReadsList` — items and commas by turns, and **`run_commaList_iff`**;
* **`run_aliased_iff`**, **`run_sortKey_iff`** — an item with what may stand behind it;
* **`clause_eq_ok_iff`**, **`byList_eq_ok_iff`** — a clause that is there, or is not;
* **`Select.read_eq_ok_iff`**, **`Statement.read_eq_ok_iff`**, **`Statement.parse_eq_ok_iff`**.
-/
import QueryTrace.Proofs.Clauses

namespace QueryTrace

open Token

section Readers

variable {α : Type} {item : Reader α} {ts rest : List Token} {keyword : String}

/-! ### Keywords -/

theorem nextIsKeyword_iff :
    nextIsKeyword keyword ts = true ↔ ∃ t us, ts = t :: us ∧ isKeyword keyword t = true := by
  cases ts with
  | nil => simp [nextIsKeyword]
  | cons t us => simp [nextIsKeyword]

theorem expectKeyword_eq_ok_iff {failure : SyntaxError} :
    expectKeyword keyword failure ts = .ok rest ↔
      ∃ t, isKeyword keyword t = true ∧ ts = t :: rest := by
  unfold expectKeyword
  cases hk : nextIsKeyword keyword ts with
  | true =>
    obtain ⟨t, us, rfl, ht⟩ := nextIsKeyword_iff.mp hk
    constructor
    · rintro ⟨⟩
      exact ⟨t, ht, rfl⟩
    · rintro ⟨u, -, he⟩
      cases he
      rfl
  | false =>
    constructor
    · rintro ⟨⟩
    · rintro ⟨t, ht, rfl⟩
      rw [nextIsKeyword_iff.mpr ⟨t, rest, rfl, ht⟩] at hk
      cases hk

/-- A quote is none of the keywords. -/
theorem isQuote_of_isKeyword {t : Token}
    (hk : (isKeyword keyword "\"" || isKeyword keyword "'") = false)
    (h : isKeyword keyword t = true) : isQuote t = false := by
  rw [Bool.or_eq_false_iff] at hk
  cases hq : isQuote t with
  | false => rfl
  | true =>
    rw [isQuote, Bool.or_eq_true, beq_iff_eq, beq_iff_eq] at hq
    rcases hq with rfl | rfl
    · rw [hk.1] at h
      cases h
    · rw [hk.2] at h
      cases h

/-! ### Items and lists -/

theorem run_token_iff {t : Token} :
    Reader.run Reader.token ts = .ok (t, rest) ↔ ts = t :: rest := by
  cases ts with
  | nil => simp [Reader.run, Reader.token, Except.map]
  | cons u us => simp [Reader.run, Reader.token, Except.map]

theorem run_aliased_iff {a : Aliased α} :
    Reader.run (Reader.aliased item) ts = .ok (a, rest) ↔
      ∃ mid, Reader.run item ts = .ok (a.item, mid) ∧
        ((nextIsKeyword "AS" mid = false ∧ a.name? = none ∧ mid = rest) ∨
          ∃ k name, isKeyword "AS" k = true ∧ a.name? = some name ∧ mid = k :: name :: rest) := by
  obtain ⟨x, name?⟩ := a
  constructor
  · intro h
    obtain ⟨hlen, h⟩ := Expr.run_eq_ok.mp h
    obtain ⟨⟨y, mid, hmid⟩, hi, h⟩ := except_bind_eq_ok.mp h
    dsimp only at h
    cases hk : nextIsKeyword "AS" mid with
    | false =>
      rw [hk] at h
      cases h
      exact ⟨_, Expr.run_eq_ok.mpr ⟨_, hi⟩, .inl ⟨hk, rfl, rfl⟩⟩
    | true =>
      rw [hk, if_pos rfl] at h
      obtain ⟨⟨name, us, hus⟩, hn, h⟩ := except_bind_eq_ok.mp h
      cases h
      obtain ⟨k, vs, rfl, hk⟩ := nextIsKeyword_iff.mp hk
      have hvs : vs = name :: us := run_token_iff.mp (Expr.run_eq_ok.mpr ⟨hus, hn⟩)
      subst hvs
      exact ⟨k :: name :: us, Expr.run_eq_ok.mpr ⟨_, hi⟩, .inr ⟨k, name, hk, rfl, rfl⟩⟩
  · rintro ⟨mid, hi, ⟨hk, hn, rfl⟩ | ⟨k, name, hk, hn, rfl⟩⟩
    · dsimp only at hn
      subst hn
      exact run_aliased_bare hi hk
    · dsimp only at hn
      subst hn
      exact run_aliased_named hi hk

theorem run_sortKey_iff {key : SortKey} :
    Reader.run SortKey.read ts = .ok (key, rest) ↔
      ∃ mid, Reader.run Expr.readExpr ts = .ok (key.expr, mid) ∧
        ((nextIsKeyword "DESC" mid = false ∧ nextIsKeyword "ASC" mid = false ∧
            key.ascending = true ∧ mid = rest) ∨
          (∃ k, isKeyword "DESC" k = true ∧ key.ascending = false ∧ mid = k :: rest) ∨
          ∃ k, isKeyword "DESC" k = false ∧ isKeyword "ASC" k = true ∧ key.ascending = true ∧
            mid = k :: rest) := by
  obtain ⟨e, ascending⟩ := key
  constructor
  · intro h
    obtain ⟨hlen, h⟩ := Expr.run_eq_ok.mp h
    obtain ⟨⟨e', mid, hmid⟩, hi, h⟩ := except_bind_eq_ok.mp h
    dsimp only at h
    cases hd : nextIsKeyword "DESC" mid with
    | true =>
      rw [hd, if_pos rfl] at h
      cases h
      obtain ⟨k, us, rfl, hk⟩ := nextIsKeyword_iff.mp hd
      exact ⟨k :: us, Expr.run_eq_ok.mpr ⟨_, hi⟩, .inr (.inl ⟨k, hk, rfl, rfl⟩)⟩
    | false =>
      rw [hd, if_neg (by decide)] at h
      cases ha : nextIsKeyword "ASC" mid with
      | true =>
        rw [ha, if_pos rfl] at h
        cases h
        obtain ⟨k, us, rfl, hk⟩ := nextIsKeyword_iff.mp ha
        have hkd : isKeyword "DESC" k = false := by simpa [nextIsKeyword] using hd
        exact ⟨k :: us, Expr.run_eq_ok.mpr ⟨_, hi⟩, .inr (.inr ⟨k, hkd, hk, rfl, rfl⟩)⟩
      | false =>
        rw [ha, if_neg (by decide)] at h
        cases h
        exact ⟨_, Expr.run_eq_ok.mpr ⟨_, hi⟩, .inl ⟨hd, ha, rfl, rfl⟩⟩
  · rintro ⟨mid, hi, ⟨hd, ha, hn, rfl⟩ | ⟨k, hk, hn, rfl⟩ | ⟨k, hd, hk, hn, rfl⟩⟩
    · dsimp only at hn
      subst hn
      exact run_sortKey_ascending hi hd ha
    · dsimp only at hn
      subst hn
      exact run_sortKey_descending hi hk
    · dsimp only at hn
      subst hn
      obtain ⟨hlen, hi⟩ := Expr.run_eq_ok.mp hi
      have hd : nextIsKeyword "DESC" (k :: rest) = false := by simpa [nextIsKeyword] using hd
      have ha : nextIsKeyword "ASC" (k :: rest) = true := by simpa [nextIsKeyword] using hk
      refine Expr.run_eq_ok.mpr ⟨Nat.lt_trans (Nat.lt_succ_self _) hlen, ?_⟩
      rw [SortKey.read, hi, except_ok_bind]
      dsimp only
      rw [hd, ha]
      rfl

/-- The items stand at the front with commas between them, and no comma behind the last. -/
inductive ReadsList (item : Reader α) : List α → List Token → List Token → Prop where
  | last {a : α} {ts rest : List Token} (ha : Reader.run item ts = .ok (a, rest))
      (hn : rest.head? ≠ some ",") : ReadsList item [a] ts rest
  | more {a : α} {l : List α} {ts mid rest : List Token}
      (ha : Reader.run item ts = .ok (a, "," :: mid)) (hl : ReadsList item l mid rest) :
      ReadsList item (a :: l) ts rest

theorem run_commaList_iff {l : List α} :
    Reader.run (Reader.commaList item) ts = .ok (l, rest) ↔ ReadsList item l ts rest := by
  constructor
  · intro h
    induction hn : ts.length using Nat.strongRecOn generalizing ts l with
    | _ n ih =>
      subst hn
      obtain ⟨hlen, h⟩ := Expr.run_eq_ok.mp h
      rw [Reader.commaList] at h
      obtain ⟨⟨a, mid, hmid⟩, hi, h⟩ := except_bind_eq_ok.mp h
      dsimp only at h
      have ha : Reader.run item ts = .ok (a, mid) := Expr.run_eq_ok.mpr ⟨hmid, hi⟩
      by_cases hc : mid.head? = some ","
      · rw [if_pos hc] at h
        obtain ⟨⟨more, us, hus⟩, hm, h⟩ := except_bind_eq_ok.mp h
        cases h
        obtain ⟨vs, rfl⟩ := List.head?_eq_some_iff.mp hc
        have hshort : vs.length < ts.length := Nat.lt_trans (Nat.lt_succ_self _) hmid
        exact .more ha (ih vs.length hshort (Expr.run_eq_ok.mpr ⟨hus, hm⟩) rfl)
      · rw [if_neg hc] at h
        cases h
        exact .last ha hc
  · intro h
    induction h with
    | last ha hn => exact run_commaList_last ha hn
    | more ha _ ih => exact run_commaList_more ha ih

/-! ### Clauses -/

theorem clause_eq_ok_iff {body : List Token → Except SyntaxError (α × List Token)}
    {c : Option α} :
    clause keyword body ts = .ok (c, rest) ↔
      (nextIsKeyword keyword ts = false ∧ c = none ∧ ts = rest) ∨
        ∃ k us a, isKeyword keyword k = true ∧ ts = k :: us ∧ body us = .ok (a, rest) ∧
          c = some a := by
  cases hk : nextIsKeyword keyword ts with
  | false =>
    rw [clause, hk]
    constructor
    · rintro ⟨⟩
      exact .inl ⟨rfl, rfl, rfl⟩
    · rintro (⟨-, rfl, rfl⟩ | ⟨k, us, a, hk', rfl, -⟩)
      · rfl
      · rw [nextIsKeyword_iff.mpr ⟨k, us, rfl, hk'⟩] at hk
        cases hk
  | true =>
    obtain ⟨k, us, rfl, hk'⟩ := nextIsKeyword_iff.mp hk
    rw [clause_of_isKeyword hk']
    constructor
    · intro h
      cases hb : body us with
      | error e =>
        rw [hb] at h
        cases h
      | ok x =>
        rw [hb] at h
        cases h
        exact .inr ⟨k, us, x.1, hk', rfl, hb, rfl⟩
    · rintro (⟨h, -⟩ | ⟨k', us', a, -, he, hb, rfl⟩)
      · cases h
      · cases he
        rw [hb]
        rfl

theorem byList_eq_ok_iff {failure : SyntaxError} {l : List α} :
    byList failure item ts = .ok (l, rest) ↔
      ∃ k us, isKeyword "BY" k = true ∧ ts = k :: us ∧ ReadsList item l us rest := by
  rw [byList, except_bind_eq_ok]
  simp only [expectKeyword_eq_ok_iff, run_commaList_iff]
  constructor
  · rintro ⟨us, ⟨k, hk, rfl⟩, hl⟩
    exact ⟨k, us, hk, rfl, hl⟩
  · rintro ⟨k, us, hk, rfl, hl⟩
    exact ⟨us, ⟨k, hk, rfl⟩, hl⟩

end Readers

/-! ### Queries and statements -/

theorem Select.read_eq_ok_iff {ts rest : List Token} {q : Select} :
    Select.read ts = .ok (q, rest) ↔ ∃ ts1 ts2 ts3 ts4 ts5 ts6 tables,
      ReadsList (Reader.aliased Expr.readExpr) q.columns ts ts1 ∧
      clause "FROM" (Reader.run (Reader.commaList (Reader.aliased Reader.token))) ts1 =
        .ok (tables, ts2) ∧
      q.tables = tables.getD [] ∧
      clause "WHERE" Expr.read ts2 = .ok (q.filter, ts3) ∧
      clause "GROUP" (byList .groupWithoutBy Expr.readExpr) ts3 = .ok (q.groupBy, ts4) ∧
      clause "HAVING" Expr.read ts4 = .ok (q.having, ts5) ∧
      clause "ORDER" (byList .orderWithoutBy SortKey.read) ts5 = .ok (q.orderBy, ts6) ∧
      clause "LIMIT" Expr.read ts6 = .ok (q.limit, ";" :: rest) := by
  simp only [← run_commaList_iff]
  constructor
  · intro h
    obtain ⟨⟨columns, ts1⟩, h1, h⟩ := except_bind_eq_ok.mp h
    obtain ⟨⟨tables, ts2⟩, h2, h⟩ := except_bind_eq_ok.mp h
    obtain ⟨⟨filter, ts3⟩, h3, h⟩ := except_bind_eq_ok.mp h
    obtain ⟨⟨groupBy, ts4⟩, h4, h⟩ := except_bind_eq_ok.mp h
    obtain ⟨⟨having, ts5⟩, h5, h⟩ := except_bind_eq_ok.mp h
    obtain ⟨⟨orderBy, ts6⟩, h6, h⟩ := except_bind_eq_ok.mp h
    obtain ⟨⟨limit, ts7⟩, h7, h⟩ := except_bind_eq_ok.mp h
    dsimp only at h
    split at h
    · cases h
      exact ⟨ts1, ts2, ts3, ts4, ts5, ts6, tables, h1, h2, rfl, h3, h4, h5, h6, h7⟩
    · cases h
  · rintro ⟨ts1, ts2, ts3, ts4, ts5, ts6, tables, h1, h2, ht, h3, h4, h5, h6, h7⟩
    simp only [Select.read, h1, h2, h3, h4, h5, h6, h7, except_ok_bind, ← ht]
    rfl

namespace Statement

theorem read_eq_ok_iff {ts rest : List Token} {st : Statement} :
    read ts = .ok (st, rest) ↔
      (∃ k us q, isKeyword "SELECT" k = true ∧ ts = k :: us ∧
        Select.read us = .ok (q, rest) ∧ st = .query q) ∨
      ∃ k1 k2 name k3 k4 us q, isKeyword "SELECT" k1 = false ∧ isKeyword "CREATE" k1 = true ∧
        isKeyword "TABLE" k2 = true ∧ isKeyword "AS" k3 = true ∧ isKeyword "SELECT" k4 = true ∧
        ts = k1 :: k2 :: name :: k3 :: k4 :: us ∧ Select.read us = .ok (q, rest) ∧
        st = .create name q := by
  cases ts with
  | nil => simp [read]
  | cons k us =>
    cases hs : isKeyword "SELECT" k with
    | true =>
      rw [read, if_pos hs, except_bind_eq_ok]
      constructor
      · rintro ⟨⟨q, us'⟩, hq, he⟩
        cases he
        exact .inl ⟨k, us, q, hs, rfl, hq, rfl⟩
      · rintro (⟨k', us', q, -, he, hq, rfl⟩ |
          ⟨k1, k2, name, k3, k4, us', q, h1, -, -, -, -, he, -⟩)
        · cases he
          exact ⟨(q, rest), hq, rfl⟩
        · cases he
          rw [hs] at h1
          cases h1
    | false =>
      rw [read, if_neg (by simp [hs])]
      cases hc : isKeyword "CREATE" k with
      | true =>
        rw [if_pos rfl]
        simp only [except_bind_eq_ok, expectKeyword_eq_ok_iff, Prod.exists, run_token_iff]
        constructor
        · rintro ⟨us1, ⟨k2, h2, rfl⟩, name, us2, rfl, us3, ⟨k3, h3, rfl⟩, us4, ⟨k4, h4, rfl⟩, q,
            rest', hq, he⟩
          cases he
          exact .inr ⟨k, k2, name, k3, k4, us4, q, hs, hc, h2, h3, h4, rfl, hq, rfl⟩
        · rintro (⟨k', us', q, h1, he, -⟩ |
            ⟨k1, k2, name, k3, k4, us', q, -, -, h2, h3, h4, he, hq, rfl⟩)
          · cases he
            rw [hs] at h1
            cases h1
          · cases he
            exact ⟨_, ⟨k2, h2, rfl⟩, name, _, rfl, _, ⟨k3, h3, rfl⟩, us', ⟨k4, h4, rfl⟩, q, rest,
              hq, rfl⟩
      | false =>
        rw [if_neg (by decide)]
        constructor
        · rintro ⟨⟩
        · rintro (⟨k', us', q, h1, he, -⟩ | ⟨k1, k2, name, k3, k4, us', q, -, h1, -, -, -, he, -⟩)
          · cases he
            rw [hs] at h1
            cases h1
          · cases he
            rw [hc] at h1
            cases h1

/-- A text is parsed if its tokens, with a semicolon at their end, begin with a statement. -/
theorem parse_eq_ok_iff {text : String} {st : Statement} :
    parse text = .ok st ↔ ∃ rest, read (terminate (scan text)) = .ok (st, rest) := by
  have hempty : ∀ rest, read (terminate []) ≠ .ok (st, rest) := by
    intro rest h
    have hs : isKeyword "SELECT" ";" = false := by decide +kernel
    have hc : isKeyword "CREATE" ";" = false := by decide +kernel
    rcases read_eq_ok_iff.mp h with ⟨k, us, q, hk, he, -⟩ |
      ⟨k1, k2, name, k3, k4, us, q, -, hk, -, -, -, he, -⟩
    · cases he
      rw [hs] at hk
      cases hk
    · cases he
  unfold parse
  dsimp only
  cases hts : scan text with
  | nil =>
    constructor
    · rintro ⟨⟩
    · rintro ⟨rest, h⟩
      exact (hempty rest h).elim
  | cons t ts =>
    show (read (terminate (t :: ts)) >>= fun x => pure x.1) = .ok st ↔ _
    rw [except_bind_eq_ok]
    constructor
    · rintro ⟨⟨st', rest⟩, hr, he⟩
      cases he
      exact ⟨rest, hr⟩
    · rintro ⟨rest, hr⟩
      exact ⟨(st, rest), hr, rfl⟩

end Statement

end QueryTrace

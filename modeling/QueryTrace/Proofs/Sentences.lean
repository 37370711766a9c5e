/-
The tokens of a statement.

The grammar of expressions and statements is stated on lists of tokens, with nothing behind them and
without regard to how they are read.  What a reader returns is then compared with the tokens that it
took.

* `Expr.Spells`, `Select.Spells`, `Statement.Spells` — the tokens spell the tree;
* `Takes` — a reader takes tokens that spell what it returns, and of the others it looks at the
  first only;
* **`takes_expr`** — the reader of expressions does so;
* **`Statement.spells_of_read`** — a statement is spelled by the tokens up to a semicolon, and the
  tokens behind that semicolon are not looked at.

Design notes: a name is any token in a place for names, as it is for the readers.  Only in front
of an operand the readers tell names from quotes and parentheses.
-/
import QueryTrace.Proofs.Grammar
import QueryTrace.Proofs.Parsed

namespace QueryTrace

open Token

/-! ### Expressions -/

namespace Expr

/-- The tokens spell the phrase. -/
inductive Spells : Phrase → List Token → Prop where
  | paren {e : Expr} {ts : List Token} (inner : Spells (.expr e) ts) :
      Spells (.operand e) ("(" :: ts ++ [")"])
  | quoted {q : Token} (content : Token) (hq : isQuote q = true) :
      Spells (.operand (.text content)) [q, content, q]
  | call {f : Token} {a : Expr} {ts : List Token} (hf : f ≠ "(") (hq : isQuote f = false)
      (inner : Spells (.expr a) ts) : Spells (.operand (.aggregate f a)) (f :: "(" :: ts ++ [")"])
  | number {n : Token} (hn : Text.isNumeral n = true) : Spells (.operand (.number n)) [n]
  | decimal {whole fraction : Token} (hw : Text.isNumeral whole = true)
      (hf : Text.isNumeral fraction = true) :
      Spells (.operand (.number (whole ++ "." ++ fraction))) [whole, ".", fraction]
  | column {name : Token} (hp : name ≠ "(") (hq : isQuote name = false)
      (hn : Text.isNumeral name = false) : Spells (.operand (.column name)) [name]
  | qualified {table name : Token} (hp : table ≠ "(") (hq : isQuote table = false)
      (hn : (Text.isNumeral table && Text.isNumeral name) = false) :
      Spells (.operand (.qualified table name)) [table, ".", name]
  | last {e : Expr} {ts : List Token} (operand : Spells (.operand e) ts) :
      Spells (.chain e []) ts
  | more {e e' : Expr} {op : BinOp} {tail : Tail} {ts os us : List Token}
      (operand : Spells (.operand e) ts) (ho : op.Spells os)
      (chain : Spells (.chain e' tail) us) : Spells (.chain e ((op, e') :: tail)) (ts ++ (os ++ us))
  | expr {head : Expr} {tail : Tail} {ts : List Token} (chain : Spells (.chain head tail) ts) :
      Spells (.expr (ofChain head tail)) ts

end Expr

/-! ### Statements -/

section Items

variable {α : Type}

/-- The items are spelled one behind the other, with commas between them. -/
inductive SpellsList (item : α → List Token → Prop) : List α → List Token → Prop where
  | last {a : α} {ts : List Token} (ha : item a ts) : SpellsList item [a] ts
  | more {a : α} {l : List α} {ts us : List Token} (ha : item a ts) (hl : SpellsList item l us) :
      SpellsList item (a :: l) (ts ++ "," :: us)

/-- An item, and its other name behind a keyword. -/
inductive Aliased.Spells (item : α → List Token → Prop) : Aliased α → List Token → Prop where
  | bare {x : α} {ts : List Token} (hx : item x ts) : Spells item ⟨x, none⟩ ts
  | named {x : α} {ts : List Token} {k : Token} (name : Token) (hx : item x ts)
      (hk : isKeyword "AS" k = true) : Spells item ⟨x, some name⟩ (ts ++ [k, name])

/-- A clause behind its keyword, or nothing. -/
inductive SpellsClause (keyword : String) (body : α → List Token → Prop) :
    Option α → List Token → Prop where
  | absent : SpellsClause keyword body none []
  | present {a : α} {k : Token} {ts : List Token} (hk : isKeyword keyword k = true)
      (ha : body a ts) : SpellsClause keyword body (some a) (k :: ts)

/-- A list behind the word that completes its keyword. -/
inductive SpellsBy (item : α → List Token → Prop) : List α → List Token → Prop where
  | intro {l : List α} {k : Token} {ts : List Token} (hk : isKeyword "BY" k = true)
      (hl : SpellsList item l ts) : SpellsBy item l (k :: ts)

end Items

/-- A token spells itself. -/
def Token.Spells (t : Token) (ts : List Token) : Prop :=
  ts = [t]

/-- The tokens spell the expression. -/
abbrev SpellsExpr (e : Expr) : List Token → Prop :=
  Expr.Spells (.expr e)

/-- An expression, and its direction behind it. -/
inductive SortKey.Spells : SortKey → List Token → Prop where
  | bare {e : Expr} {ts : List Token} (he : SpellsExpr e ts) : Spells ⟨e, true⟩ ts
  | ascending {e : Expr} {ts : List Token} {k : Token} (he : SpellsExpr e ts)
      (hk : isKeyword "ASC" k = true) : Spells ⟨e, true⟩ (ts ++ [k])
  | descending {e : Expr} {ts : List Token} {k : Token} (he : SpellsExpr e ts)
      (hk : isKeyword "DESC" k = true) : Spells ⟨e, false⟩ (ts ++ [k])

/-- The clauses of a query in their order, and a semicolon. -/
inductive Select.Spells : Select → List Token → Prop where
  | intro {q : Select} {tables : Option (List (Aliased String))}
      {cs fs ws gs hs os ls : List Token}
      (hc : SpellsList (Aliased.Spells SpellsExpr) q.columns cs)
      (hf : SpellsClause "FROM" (SpellsList (Aliased.Spells Token.Spells)) tables fs)
      (ht : q.tables = tables.getD [])
      (hw : SpellsClause "WHERE" SpellsExpr q.filter ws)
      (hg : SpellsClause "GROUP" (SpellsBy SpellsExpr) q.groupBy gs)
      (hh : SpellsClause "HAVING" SpellsExpr q.having hs)
      (ho : SpellsClause "ORDER" (SpellsBy SortKey.Spells) q.orderBy os)
      (hl : SpellsClause "LIMIT" SpellsExpr q.limit ls) :
      Spells q (cs ++ (fs ++ (ws ++ (gs ++ (hs ++ (os ++ (ls ++ [";"])))))))

/-- A query behind its keyword, or the creation of a table from one. -/
inductive Statement.Spells : Statement → List Token → Prop where
  | query {q : Select} {k : Token} {ts : List Token} (hk : isKeyword "SELECT" k = true)
      (hq : Select.Spells q ts) : Spells (.query q) (k :: ts)
  | create {q : Select} {k1 k2 k3 k4 : Token} {ts : List Token} (name : Token)
      (h1 : isKeyword "CREATE" k1 = true) (h2 : isKeyword "TABLE" k2 = true)
      (h3 : isKeyword "AS" k3 = true) (h4 : isKeyword "SELECT" k4 = true)
      (hq : Select.Spells q ts) :
      Spells (.create name q) (k1 :: k2 :: name :: k3 :: k4 :: ts)

/-! ### What readers take -/

/-- The reader takes tokens that spell what it returns, and behind them the first token alone
decides that it takes no more. -/
def Takes {α : Type} (read : List Token → Except SyntaxError (α × List Token))
    (spells : α → List Token → Prop) : Prop :=
  ∀ ts a rest, read ts = .ok (a, rest) → ∃ front, ts = front ++ rest ∧ spells a front ∧
    ∀ rest', rest'.head? = rest.head? → read (front ++ rest') = .ok (a, rest')

namespace Expr

theorem spells_alone {first : Token} (hp : first ≠ "(") (hq : isQuote first = false) :
    Spells (.operand (if Text.isNumeral first then .number first else .column first)) [first] := by
  cases hn : Text.isNumeral first with
  | true => exact .number hn
  | false => exact .column hp hq hn

theorem spells_point {first second : Token} (hp : first ≠ "(") (hq : isQuote first = false) :
    Spells (.operand (if Text.isNumeral first && Text.isNumeral second then
      .number (first ++ "." ++ second) else .qualified first second)) [first, ".", second] := by
  cases hn : Text.isNumeral first && Text.isNumeral second with
  | true =>
    rw [Bool.and_eq_true] at hn
    exact .decimal hn.1 hn.2
  | false => exact .qualified hp hq hn

/-- **A phrase is spelled by the tokens it takes**, and behind them the first token alone decides
that it takes no more. -/
theorem Reads.takes {p : Phrase} {ts rest : List Token} (h : Reads p ts rest) :
    ∃ front, ts = front ++ rest ∧ Spells p front ∧
      ∀ rest', rest'.head? = rest.head? → Reads p (front ++ rest') rest' := by
  induction h with
  | @paren e ts rest _ ih =>
    obtain ⟨front, rfl, hs, hl⟩ := ih
    refine ⟨"(" :: front ++ [")"], by simp, .paren hs, fun rest' _ => ?_⟩
    have hinner := hl (")" :: rest') rfl
    simpa using Reads.paren hinner
  | @quoted q content rest hq =>
    exact ⟨[q, content, q], rfl, .quoted content hq, fun _ _ => .quoted hq⟩
  | @call f a ts rest hf hq _ ih =>
    obtain ⟨front, rfl, hs, hl⟩ := ih
    refine ⟨f :: "(" :: front ++ [")"], by simp, .call hf hq hs, fun rest' _ => ?_⟩
    have hinner := hl (")" :: rest') rfl
    simpa using Reads.call hf hq hinner
  | @name first e ts rest hp hq hc hn =>
    by_cases hpoint : ts.head? = some "."
    · obtain ⟨us, rfl⟩ := List.head?_eq_some_iff.mp hpoint
      cases us with
      | nil => cases hn
      | cons second us =>
        rw [run_readName_point] at hn
        cases hn
        exact ⟨[first, ".", second], rfl, spells_point hp hq, fun rest' _ =>
          .name hp hq (by simp) (run_readName_point first second rest')⟩
    · rw [run_readName_alone first hpoint] at hn
      cases hn
      exact ⟨[first], rfl, spells_alone hp hq, fun rest' hr =>
        .name hp hq (hr ▸ hc) (run_readName_alone first (hr ▸ hpoint))⟩
  | last _ hn ih =>
    obtain ⟨front, rfl, hs, hl⟩ := ih
    exact ⟨front, rfl, .last hs, fun rest' hr =>
      .last (hl rest' hr) (nextOperator_none_of_head hr hn)⟩
  | @more e e' op tail ts mid mid' rest _ hn _ ih ih' =>
    obtain ⟨front, rfl, hs, hl⟩ := ih
    obtain ⟨os, ho, hne, rfl, hop⟩ := spells_of_nextOperator hn
    obtain ⟨front', rfl, hs', hl'⟩ := ih'
    refine ⟨front ++ (os ++ front'), by simp, .more hs ho hs', fun rest' hr => ?_⟩
    -- another rest behind the chain is another rest behind the operand, with the same first token
    have hmid : (os ++ (front' ++ rest')).head? = (os ++ (front' ++ rest)).head? := by
      cases os with
      | nil => exact (hne rfl).elim
      | cons t os => rfl
    have hmid' : (front' ++ rest').head? = (front' ++ rest).head? := by
      rw [List.head?_append, List.head?_append, hr]
    simpa using Reads.more (hl _ hmid) (hop _ hmid') (hl' rest' hr)
  | expr _ ih =>
    obtain ⟨front, rfl, hs, hl⟩ := ih
    exact ⟨front, rfl, .expr hs, fun rest' hr => .expr (hl rest' hr)⟩

/-- The reader of expressions takes the tokens of an expression. -/
theorem takes_expr : Takes Expr.read SpellsExpr := by
  intro ts e rest h
  obtain ⟨front, hts, hs, hl⟩ := (read_eq_ok_iff.mp h).takes
  exact ⟨front, hts, hs, fun rest' hr => read_eq_ok_iff.mpr (hl rest' hr)⟩

end Expr

section Readers

variable {α : Type} {item : Reader α} {spells : α → List Token → Prop}

theorem takes_token : Takes (Reader.run Reader.token) Token.Spells := by
  intro ts t rest h
  obtain rfl := run_token_iff.mp h
  exact ⟨[t], rfl, rfl, fun rest' _ => run_token_iff.mpr rfl⟩

theorem nextIsKeyword_of_head {keyword : String} {ts us : List Token} (h : us.head? = ts.head?) :
    nextIsKeyword keyword us = nextIsKeyword keyword ts := by
  rw [nextIsKeyword, nextIsKeyword, h]

theorem takes_aliased (hi : Takes (Reader.run item) spells) :
    Takes (Reader.run (Reader.aliased item)) (Aliased.Spells spells) := by
  rintro ts ⟨x, name?⟩ rest h
  obtain ⟨mid, hx, ⟨hk, hn, rfl⟩ | ⟨k, name, hk, hn, rfl⟩⟩ := run_aliased_iff.mp h
  · obtain ⟨front, rfl, hs, hl⟩ := hi _ _ _ hx
    dsimp only at hn
    subst hn
    refine ⟨front, rfl, .bare hs, fun rest' hr => ?_⟩
    exact run_aliased_bare (hl rest' hr) ((nextIsKeyword_of_head hr).trans hk)
  · obtain ⟨front, rfl, hs, hl⟩ := hi _ _ _ hx
    dsimp only at hn
    subst hn
    refine ⟨front ++ [k, name], by simp, .named name hs hk, fun rest' _ => ?_⟩
    rw [List.append_assoc]
    exact run_aliased_named (hl (k :: name :: rest') rfl) hk

theorem takes_sortKey : Takes (Reader.run SortKey.read) SortKey.Spells := by
  rintro ts ⟨e, ascending⟩ rest h
  obtain ⟨mid, he, hmid⟩ := run_sortKey_iff.mp h
  obtain ⟨front, rfl, hs, hl⟩ := Expr.takes_expr _ _ _ he
  dsimp only at hmid
  rcases hmid with ⟨hd, ha, rfl, rfl⟩ | ⟨k, hk, rfl, rfl⟩ | ⟨k, hd, hk, rfl, rfl⟩
  · refine ⟨front, rfl, .bare hs, fun rest' hr => run_sortKey_iff.mpr ⟨rest', hl rest' hr, .inl ?_⟩⟩
    exact ⟨(nextIsKeyword_of_head hr).trans hd, (nextIsKeyword_of_head hr).trans ha, rfl, rfl⟩
  · refine ⟨front ++ [k], by simp, .descending hs hk, fun rest' _ => ?_⟩
    rw [List.append_assoc]
    exact run_sortKey_iff.mpr ⟨_, hl (k :: rest') rfl, .inr (.inl ⟨k, hk, rfl, rfl⟩)⟩
  · refine ⟨front ++ [k], by simp, .ascending hs hk, fun rest' _ => ?_⟩
    rw [List.append_assoc]
    exact run_sortKey_iff.mpr ⟨_, hl (k :: rest') rfl, .inr (.inr ⟨k, hd, hk, rfl, rfl⟩)⟩

/-- By induction on the items that were read. -/
theorem takes_commaList (hi : Takes (Reader.run item) spells) :
    Takes (Reader.run (Reader.commaList item)) (SpellsList spells) := by
  intro ts l rest h
  have hlist := run_commaList_iff.mp h
  simp only [run_commaList_iff]
  induction hlist with
  | last ha hn =>
    obtain ⟨front, rfl, hs, hl⟩ := hi _ _ _ ha
    exact ⟨front, rfl, .last hs, fun rest' hr => .last (hl rest' hr) (hr ▸ hn)⟩
  | more ha hmore ih =>
    obtain ⟨front, rfl, hs, hl⟩ := hi _ _ _ ha
    obtain ⟨front', rfl, hs', hl'⟩ := ih (run_commaList_iff.mpr hmore)
    refine ⟨front ++ "," :: front', by simp, .more hs hs', fun rest' hr => ?_⟩
    rw [List.append_assoc]
    exact .more (hl _ rfl) (hl' rest' hr)

theorem takes_clause {keyword : String} {body : List Token → Except SyntaxError (α × List Token)}
    (hb : Takes body spells) : Takes (clause keyword body) (SpellsClause keyword spells) := by
  intro ts c rest h
  rcases clause_eq_ok_iff.mp h with ⟨hk, rfl, rfl⟩ | ⟨k, us, a, hk, rfl, ha, rfl⟩
  · refine ⟨[], rfl, .absent, fun rest' hr => clause_eq_ok_iff.mpr (.inl ⟨?_, rfl, rfl⟩)⟩
    exact (nextIsKeyword_of_head hr).trans hk
  · obtain ⟨front, rfl, hs, hl⟩ := hb _ _ _ ha
    refine ⟨k :: front, rfl, .present hk hs, fun rest' hr => clause_eq_ok_iff.mpr (.inr ?_)⟩
    exact ⟨k, front ++ rest', a, hk, rfl, hl rest' hr, rfl⟩

theorem takes_byList {failure : SyntaxError} (hi : Takes (Reader.run item) spells) :
    Takes (byList failure item) (SpellsBy spells) := by
  intro ts l rest h
  obtain ⟨k, us, hk, rfl, hlist⟩ := byList_eq_ok_iff.mp h
  obtain ⟨front, rfl, hs, hl⟩ := takes_commaList hi _ _ _ (run_commaList_iff.mpr hlist)
  refine ⟨k :: front, rfl, .intro hk hs, fun rest' hr => byList_eq_ok_iff.mpr ?_⟩
  exact ⟨k, front ++ rest', hk, rfl, run_commaList_iff.mp (hl rest' hr)⟩

end Readers

/-! ### Statements -/

/-- A query is spelled by the tokens up to its semicolon, whatever stands behind it. -/
theorem Select.spells_of_read {ts rest : List Token} {q : Select}
    (h : Select.read ts = .ok (q, rest)) :
    ∃ front, ts = front ++ rest ∧ Select.Spells q front ∧
      ∀ rest', Select.read (front ++ rest') = .ok (q, rest') := by
  obtain ⟨ts1, ts2, ts3, ts4, ts5, ts6, tables, h1, h2, ht, h3, h4, h5, h6, h7⟩ :=
    Select.read_eq_ok_iff.mp h
  obtain ⟨cs, rfl, hc, lc⟩ :=
    takes_commaList (takes_aliased Expr.takes_expr) _ _ _ (run_commaList_iff.mpr h1)
  obtain ⟨fs, rfl, hf, lf⟩ := takes_clause (takes_commaList (takes_aliased takes_token)) _ _ _ h2
  obtain ⟨ws, rfl, hw, lw⟩ := takes_clause Expr.takes_expr _ _ _ h3
  obtain ⟨gs, rfl, hg, lg⟩ := takes_clause (takes_byList Expr.takes_expr) _ _ _ h4
  obtain ⟨hs, rfl, hh, lh⟩ := takes_clause Expr.takes_expr _ _ _ h5
  obtain ⟨os, rfl, ho, lo⟩ := takes_clause (takes_byList takes_sortKey) _ _ _ h6
  obtain ⟨ls, rfl, hl, ll⟩ := takes_clause Expr.takes_expr _ _ _ h7
  refine ⟨cs ++ (fs ++ (ws ++ (gs ++ (hs ++ (os ++ (ls ++ [";"])))))), by simp,
    .intro hc hf ht hw hg hh ho hl, fun rest' => ?_⟩
  -- behind each clause the first token is the same, since the query ends with its semicolon
  have hhead : ∀ {us vs : List Token} (front : List Token), us.head? = vs.head? →
      (front ++ us).head? = (front ++ vs).head? := by
    intro us vs front he
    rw [List.head?_append, List.head?_append, he]
  have e7 : (";" :: rest').head? = (";" :: rest).head? := rfl
  have e6 := hhead ls e7
  have e5 := hhead os e6
  have e4 := hhead hs e5
  have e3 := hhead gs e4
  have e2 := hhead ws e3
  have e1 := hhead fs e2
  simp only [List.append_assoc, List.singleton_append]
  exact Select.read_eq_ok_iff.mpr ⟨_, _, _, _, _, _, tables, run_commaList_iff.mp (lc _ e1),
    lf _ e2, ht, lw _ e3, lg _ e4, lh _ e5, lo _ e6, ll _ e7⟩

/-- **A statement is spelled by the tokens up to its semicolon**, whatever stands behind it. -/
theorem Statement.spells_of_read {ts rest : List Token} {st : Statement}
    (h : Statement.read ts = .ok (st, rest)) :
    ∃ front, ts = front ++ rest ∧ Statement.Spells st front ∧
      ∀ rest', Statement.read (front ++ rest') = .ok (st, rest') := by
  rcases Statement.read_eq_ok_iff.mp h with ⟨k, us, q, hk, rfl, hq, rfl⟩ |
    ⟨k1, k2, name, k3, k4, us, q, hs, h1, h2, h3, h4, rfl, hq, rfl⟩
  · obtain ⟨front, rfl, hsp, hl⟩ := Select.spells_of_read hq
    refine ⟨k :: front, rfl, .query hk hsp, fun rest' => Statement.read_eq_ok_iff.mpr (.inl ?_)⟩
    exact ⟨k, front ++ rest', q, hk, rfl, hl rest', rfl⟩
  · obtain ⟨front, rfl, hsp, hl⟩ := Select.spells_of_read hq
    refine ⟨k1 :: k2 :: name :: k3 :: k4 :: front, rfl, .create name h1 h2 h3 h4 hsp,
      fun rest' => Statement.read_eq_ok_iff.mpr (.inr ?_)⟩
    exact ⟨k1, k2, name, k3, k4, front ++ rest', q, hs, h1, h2, h3, h4, rfl, hl rest', rfl⟩

theorem Select.Spells.ends {q : Select} {ts : List Token} (h : Select.Spells q ts) :
    ∃ us, ts = us ++ [";"] := by
  obtain ⟨hc, hf, ht, hw, hg, hh, ho, hl⟩ := h
  simp only [← List.append_assoc]
  exact ⟨_, rfl⟩

/-- The last token of a statement is a semicolon. -/
theorem Statement.Spells.ends {st : Statement} {ts : List Token} (h : Statement.Spells st ts) :
    ∃ us, ts = us ++ [";"] := by
  cases h with
  | query _ hq =>
    obtain ⟨us, rfl⟩ := hq.ends
    exact ⟨_ :: us, rfl⟩
  | create _ _ _ _ _ hq =>
    obtain ⟨us, rfl⟩ := hq.ends
    exact ⟨_ :: _ :: _ :: _ :: _ :: us, rfl⟩

/-- What is left behind a statement is left behind one of its semicolons. -/
theorem Statement.left_of_read {ts before behind rest : List Token} {st : Statement}
    (h : Statement.read ts = .ok (st, rest)) (hts : ts = before ++ behind) (hb : ";" ∉ before) :
    ∃ us, behind = us ++ ";" :: rest := by
  obtain ⟨front, he, hs, -⟩ := Statement.spells_of_read h
  obtain ⟨us, rfl⟩ := hs.ends
  rw [hts, List.append_assoc] at he
  rcases List.append_eq_append_iff.mp he with ⟨vs, rfl, hbehind⟩ | ⟨vs, rfl, hrest⟩
  · exact ⟨vs, hbehind⟩
  · cases vs with
    | nil => exact ⟨[], hrest.symm⟩
    | cons v vs =>
      cases hrest
      exact (hb (by simp)).elim

end QueryTrace

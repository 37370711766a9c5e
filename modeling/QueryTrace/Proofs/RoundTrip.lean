/-
Printed statements are read back.

The tokens of a printed statement are put together clause by clause, and the readers take them apart
in the same places.

* `Select.WellFormed` and `Statement.WellFormed` — which queries and statements can be written down;
* `Select.spell` and `Statement.spell` — the tokens that they are written with;
* `Select.read_spell` — the tokens of a query are read as the query, whatever stands behind them;
* `parse_print` — a printed statement is read as the statement.
-/
import QueryTrace.Proofs.Clauses

namespace QueryTrace

open Token

/-! ### Well-formed statements -/

/-- A query whose lists have items, and whose expressions and names are well formed. -/
structure Select.WellFormed (s : Select) : Prop where
  columns_ne_nil : s.columns ≠ []
  columns : ∀ c ∈ s.columns, c.item.WellFormed ∧ c.NameWellFormed
  tables : ∀ t ∈ s.tables, IsWord t.item ∧ t.NameWellFormed
  filter : ∀ e, s.filter = some e → e.WellFormed
  groupBy : ∀ es, s.groupBy = some es → es ≠ [] ∧ ∀ e ∈ es, e.WellFormed
  having : ∀ e, s.having = some e → e.WellFormed
  orderBy : ∀ keys, s.orderBy = some keys → keys ≠ [] ∧ ∀ key ∈ keys, key.expr.WellFormed
  limit : ∀ e, s.limit = some e → e.WellFormed

/-- Are the query and the name of the new table well formed? -/
def Statement.WellFormed : Statement → Prop
  | query s => s.WellFormed
  | create table s => IsWord table ∧ s.WellFormed

/-! ### Queries -/

namespace Select

/-- The tables as a clause, which is absent if there are none. -/
def tables? (s : Select) : Option (List (Aliased String)) :=
  if s.tables.isEmpty then none else some s.tables

/-- The tokens of a query. -/
def spell (s : Select) : List Token :=
  "SELECT" :: (listTokens (Aliased.tokens Expr.spell) s.columns ++
    (clauseTokens ["FROM"] (listTokens (Aliased.tokens fun t => [t])) s.tables? ++
    (clauseTokens ["WHERE"] Expr.spell s.filter ++
    (clauseTokens ["GROUP", "BY"] (listTokens Expr.spell) s.groupBy ++
    (clauseTokens ["HAVING"] Expr.spell s.having ++
    (clauseTokens ["ORDER", "BY"] (listTokens SortKey.tokens) s.orderBy ++
    (clauseTokens ["LIMIT"] Expr.spell s.limit ++ [";"])))))))

theorem WellFormed.tables_of_tables? {s : Select} (h : s.WellFormed)
    {tables : List (Aliased String)} (ht : s.tables? = some tables) :
    tables ≠ [] ∧ ∀ t ∈ tables, IsWord t.item ∧ t.NameWellFormed := by
  unfold tables? at ht
  split at ht
  · cases ht
  · next hne =>
    cases ht
    exact ⟨by simpa using hne, h.tables⟩

theorem getD_tables? (s : Select) : s.tables?.getD [] = s.tables := by
  unfold tables?
  split
  · next he => exact (List.isEmpty_iff.mp he).symm
  · rfl

theorem written_sortKey {key : SortKey} (h : key.expr.WellFormed) :
    Written key.print key.tokens := by
  obtain ⟨e, ascending⟩ := key
  cases ascending with
  | true => exact QueryTrace.written_print h
  | false =>
    have hdesc : Written "DESC" ["DESC"] := written_name (.inl (by decide))
    have he := (QueryTrace.written_print h).space hdesc
    have hs : " " ++ "DESC" = " DESC" := by decide
    rwa [String.append_assoc, hs] at he

theorem written_columns {s : Select} (h : s.WellFormed) :
    Written (printList (Aliased.print Expr.print) s.columns)
      (listTokens (Aliased.tokens Expr.spell) s.columns) :=
  written_list h.columns_ne_nil fun c hc =>
    written_aliased (QueryTrace.written_print (h.columns c hc).1) (h.columns c hc).2

theorem written_tables {s : Select} (h : s.WellFormed) {tables : List (Aliased String)}
    (ht : s.tables? = some tables) :
    Written (printList (Aliased.print id) tables)
      (listTokens (Aliased.tokens fun t => [t]) tables) := by
  obtain ⟨hne, hall⟩ := h.tables_of_tables? ht
  refine written_list hne fun t ht => ?_
  exact written_aliased (written_name (.inl (hall t ht).1)) (hall t ht).2

theorem written_print {s : Select} (h : s.WellFormed) : Written s.print s.spell := by
  have hselect : Written "SELECT" ["SELECT"] := written_name (.inl (by decide))
  have hfrom : Written "FROM" ["FROM"] := written_name (.inl (by decide))
  have hwhere : Written "WHERE" ["WHERE"] := written_name (.inl (by decide))
  have hgroup : Written "GROUP" ["GROUP"] := written_name (.inl (by decide))
  have hby : Written "BY" ["BY"] := written_name (.inl (by decide))
  have hhaving : Written "HAVING" ["HAVING"] := written_name (.inl (by decide))
  have horder : Written "ORDER" ["ORDER"] := written_name (.inl (by decide))
  have hlimit : Written "LIMIT" ["LIMIT"] := written_name (.inl (by decide))
  have h1 := hselect.space (written_columns h)
  have h2 := h1.clause hfrom fun ts hts => written_tables h hts
  have h3 := h2.clause hwhere fun e he => QueryTrace.written_print (h.filter e he)
  have h4 := h3.clause (hgroup.space hby) fun es hes => written_list (h.groupBy es hes).1
    fun e he => QueryTrace.written_print ((h.groupBy es hes).2 e he)
  have h5 := h4.clause hhaving fun e he => QueryTrace.written_print (h.having e he)
  have h6 := h5.clause (horder.space hby) fun keys hkeys => written_list (h.orderBy keys hkeys).1
    fun key hkey => written_sortKey ((h.orderBy keys hkeys).2 key hkey)
  have h7 := h6.clause hlimit fun e he => QueryTrace.written_print (h.limit e he)
  have h8 := h7.semicolon
  have hgb : "GROUP" ++ " " ++ "BY" = "GROUP BY" := by decide
  have hob : "ORDER" ++ " " ++ "BY" = "ORDER BY" := by decide
  have hs : "SELECT" ++ " " = "SELECT " := by decide
  rw [hgb, hob, hs] at h8
  simp only [List.append_assoc, List.cons_append, List.nil_append] at h8
  exact h8

theorem readBack_columns {s : Select} (h : s.WellFormed) :
    ReadBack (Reader.run (Reader.commaList (Reader.aliased Expr.readExpr)))
      (listTokens (Aliased.tokens Expr.spell)) clauseEnds s.columns :=
  readBack_list h.columns_ne_nil fun c hc =>
    readBack_aliased ((readBack_expr (h.columns c hc).1).mono (by decide))

theorem readBack_tables {s : Select} (h : s.WellFormed) {ks : List Token}
    (hks : ks.all (fun k => !isKeyword "FROM" k) = true)
    (hends : ks.all clauseEnds.contains = true) :
    ReadBack (clause "FROM" (Reader.run (Reader.commaList (Reader.aliased Reader.token))))
      (clauseTokens ["FROM"] (listTokens (Aliased.tokens fun t => [t]))) ks s.tables? := by
  refine readBack_clause "FROM" [] (by decide +kernel) hks fun tables ht => ?_
  have hlist := readBack_list (h.tables_of_tables? ht).1 fun t _ =>
    readBack_aliased (readBack_token _ t.item)
  exact hlist.mono hends

/-- What a clause ends in front of are the clauses behind it, or the semicolon if all of them are
absent. -/
theorem read_spell {s : Select} (h : s.WellFormed) (rest : List Token) :
    Select.read (s.spell.tail ++ rest) = .ok (s, rest) := by
  have hgroup : ∀ es, s.groupBy = some es → ∀ e ∈ es,
      ReadBack (Reader.run Expr.readExpr) Expr.spell itemEnds e := by
    intro es hes e he
    exact (readBack_expr ((h.groupBy es hes).2 e he)).mono (by decide)
  have horder : ∀ keys, s.orderBy = some keys → ∀ key ∈ keys,
      ReadBack (Reader.run SortKey.read) SortKey.tokens itemEnds key := by
    intro keys hkeys key hkey
    exact readBack_sortKey ((h.orderBy keys hkeys).2 key hkey)
  -- from the last clause to the first: which token a clause ends in front of
  have b7 : Begins [";"] (";" :: rest) := ⟨";", by simp, rest, rfl⟩
  have b6 := begins_clause "LIMIT" [] Expr.spell s.limit b7
  have b5 := begins_clause "ORDER" ["BY"] (listTokens SortKey.tokens) s.orderBy b6
  have b4 := begins_clause "HAVING" [] Expr.spell s.having b5
  have b3 := begins_clause "GROUP" ["BY"] (listTokens Expr.spell) s.groupBy b4
  have b2 := begins_clause "WHERE" [] Expr.spell s.filter b3
  have b1 := begins_clause "FROM" [] (listTokens (Aliased.tokens fun t => [t])) s.tables? b2
  -- so each clause is read up to there
  have r1 := readBack_columns h _ b1
  have r2 := readBack_tables h (by decide +kernel) (by decide) _ b2
  have r3 := readBack_exprClause "WHERE" h.filter (by decide +kernel) (by decide +kernel)
    (by decide) _ b3
  have r4 := readBack_byClause "GROUP" .groupWithoutBy
    (fun es hes => (h.groupBy es hes).1) hgroup (by decide +kernel) (by decide +kernel)
    (by decide) _ b4
  have r5 := readBack_exprClause "HAVING" h.having (by decide +kernel) (by decide +kernel)
    (by decide) _ b5
  have r6 := readBack_byClause "ORDER" .orderWithoutBy
    (fun keys hkeys => (h.orderBy keys hkeys).1) horder (by decide +kernel) (by decide +kernel)
    (by decide) _ b6
  have r7 := readBack_exprClause "LIMIT" h.limit (by decide +kernel) (by decide +kernel)
    (by decide) _ b7
  have htokens : s.spell.tail ++ rest = listTokens (Aliased.tokens Expr.spell) s.columns ++
      (clauseTokens ["FROM"] (listTokens (Aliased.tokens fun t => [t])) s.tables? ++
      (clauseTokens ["WHERE"] Expr.spell s.filter ++
      (clauseTokens ["GROUP", "BY"] (listTokens Expr.spell) s.groupBy ++
      (clauseTokens ["HAVING"] Expr.spell s.having ++
      (clauseTokens ["ORDER", "BY"] (listTokens SortKey.tokens) s.orderBy ++
      (clauseTokens ["LIMIT"] Expr.spell s.limit ++ ";" :: rest)))))) := by
    simp [spell]
  rw [htokens]
  simp only [Select.read, r1, r2, r3, r4, r5, r6, r7, except_ok_bind, getD_tables?]
  rfl

end Select

/-! ### Statements -/

namespace Statement

/-- The tokens of a statement. -/
def spell : Statement → List Token
  | query s => s.spell
  | create table s => "CREATE" :: "TABLE" :: table :: "AS" :: s.spell

theorem written_print {st : Statement} (h : st.WellFormed) : Written st.print st.spell := by
  cases st with
  | query s => exact Select.written_print h
  | create table s =>
    have hcreate : Written "CREATE" ["CREATE"] := written_name (.inl (by decide))
    have htable : Written "TABLE" ["TABLE"] := written_name (.inl (by decide))
    have has : Written "AS" ["AS"] := written_name (.inl (by decide))
    have hname := (hcreate.space htable).space (written_name (.inl h.1))
    have hall := (hname.space has).space (Select.written_print h.2)
    have htext : print (create table s) =
        "CREATE" ++ " " ++ "TABLE" ++ " " ++ table ++ " " ++ "AS" ++ " " ++ s.print := by
      rw [← String.toList_inj]
      simp [print]
    rw [htext]
    exact hall

theorem read_spell {st : Statement} (h : st.WellFormed) : read st.spell = .ok (st, []) := by
  have hselect : isKeyword "SELECT" "SELECT" = true := by decide +kernel
  cases st with
  | query s =>
    show read ("SELECT" :: s.spell.tail) = _
    have hs := Select.read_spell h []
    rw [List.append_nil] at hs
    rw [read, if_pos hselect, hs]
    rfl
  | create table s =>
    have hs := Select.read_spell h.2 []
    rw [List.append_nil] at hs
    have hcreate : isKeyword "CREATE" "CREATE" = true := by decide +kernel
    have hother : ¬ isKeyword "SELECT" "CREATE" = true := by decide +kernel
    have htable : isKeyword "TABLE" "TABLE" = true := by decide +kernel
    have has : isKeyword "AS" "AS" = true := by decide +kernel
    have hexpect : ∀ {keyword failure ts}, isKeyword keyword keyword = true →
        expectKeyword keyword failure (keyword :: ts) = .ok ts := by
      intro keyword failure ts hk
      simp [expectKeyword, nextIsKeyword, hk]
    show read ("CREATE" :: "TABLE" :: table :: "AS" :: "SELECT" :: s.spell.tail) = _
    rw [read, if_neg hother, if_pos hcreate, hexpect htable, except_ok_bind]
    show (expectKeyword "AS" _ ("AS" :: "SELECT" :: s.spell.tail) >>= _) = _
    rw [hexpect has, except_ok_bind, hexpect hselect, except_ok_bind, hs]
    rfl

theorem getLast?_spell (st : Statement) : st.spell.getLast? = some ";" := by
  cases st <;> simp [spell, Select.spell, List.getLast?_append, List.getLast?_cons]

/-- **Printed statements are read back.** -/
theorem parse_print {st : Statement} (h : st.WellFormed) : parse st.print = .ok st := by
  have hscan : scan st.print = st.spell := by
    have := written_print h [] breaks_nil
    rwa [List.append_nil, tokensOf_nil, List.append_nil] at this
  have hne : st.spell.isEmpty = false := by
    cases st <;> rfl
  have hend : terminate st.spell = st.spell := if_pos (getLast?_spell st)
  unfold parse
  dsimp only
  rw [hscan, hne, hend, read_spell h]
  rfl

/-- A statement whose names are keywords, with parentheses and both kinds of quote. -/
def keywordNames : Statement := .create "AS" {
  columns := [⟨.aggregate "FROM" (.column "*"), some "DESC"⟩]
  tables := [⟨"SELECT", none⟩]
  filter := some (.binary .lt (.qualified "BY" "*") (.binary .mul (.number "1") (.text "a'b")))
  orderBy := some [⟨.column "AND", false⟩] }

theorem parse_keywordNames : keywordNames.WellFormed ∧
    parse keywordNames.print = .ok keywordNames := by
  have h : keywordNames.WellFormed := by
    refine ⟨by decide, by decide, ?_, ?_, ?_, ?_, ?_, ?_, ?_⟩
    · simp only [List.mem_singleton, forall_eq]
      refine ⟨⟨by decide, .inr rfl, by decide⟩, ?_⟩
      rintro name ⟨⟩
      decide
    · simp only [List.mem_singleton, forall_eq]
      exact ⟨by decide, by rintro name ⟨⟩⟩
    · rintro e ⟨⟩
      exact ⟨⟨by decide, .inr rfl, by decide⟩, .inl (by decide), .inl (by decide)⟩
    · rintro es ⟨⟩
    · rintro e ⟨⟩
    · rintro keys ⟨⟩
      simp only [List.mem_singleton, forall_eq]
      exact ⟨by decide, .inl (by decide), by decide⟩
    · rintro e ⟨⟩
  exact ⟨h, parse_print h⟩

end Statement

end QueryTrace

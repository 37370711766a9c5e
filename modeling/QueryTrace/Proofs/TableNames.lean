/-
What can stand in the place of a table name.

The content of a quoted text is a token like any other, and it may hold blanks, semicolons and
whole statements.  This file shows that no such token is ever taken for the name of a table, and
that the question for a table is therefore one statement of a script, whatever the name is.

* **`TableName`** — a word, a mark or a quote; `tableName_of_parse` says that the tables of every
  parsed statement have such names;
* `BehindNoQuote` — the token has a neighbour in front of it that is no quote;
* **`statements_readTable`** — the question for a table is one statement.

Design notes: a content follows a quote, and the name of a table follows a keyword or a comma.  This
is all that is needed, so it does not matter how the reader got to the place.
-/
import QueryTrace.Proofs.Grammar
import QueryTrace.Proofs.Parsed
import QueryTrace.Script
import QueryTrace.Trace.Run

namespace QueryTrace

open Token

/-! ### Names of tables -/

/-- Can the token stand for the name of a table? -/
def TableName (t : Token) : Prop :=
  IsName t ∨ isQuote t = true

/-- Of the tokens of a text only the content of a quoted text is something else, and a quote stands
in front of it. -/
theorem tableName_of_scanned {ts before behind : List Token} {previous t : Token}
    (h : Scanned ts) (hts : ts = before ++ previous :: t :: behind)
    (hq : isQuote previous = false) : TableName t := by
  induction h generalizing before with
  | nil => simp at hts
  | @name u us hu hus ih =>
    cases before with
    | nil =>
      cases hts
      cases hus with
      | name ht _ => exact .inl ht
      | quoted hc _ _ => exact .inr (Expr.isQuote_toString hc)
      | unclosed hc _ => exact .inr (Expr.isQuote_toString hc)
    | cons v before =>
      rw [List.cons_append, List.cons.injEq] at hts
      exact ih hts.2
  | @quoted q content us hc _ _ ih =>
    have hquote := Expr.isQuote_toString hc
    rcases before with _ | ⟨v1, _ | ⟨v2, _ | ⟨v3, before⟩⟩⟩
    · cases hts
      rw [hquote] at hq
      cases hq
    · cases hts
      exact .inr hquote
    · cases hts
      rw [hquote] at hq
      cases hq
    · simp only [List.cons_append, List.cons.injEq] at hts
      exact ih hts.2.2.2
  | @unclosed q content hc _ =>
    rcases before with _ | ⟨v1, _ | ⟨v2, before⟩⟩
    · cases hts
      rw [Expr.isQuote_toString hc] at hq
      cases hq
    · cases hts
    · simp at hts

theorem tableName_of_terminate {ts before behind : List Token} {previous t : Token}
    (h : Scanned ts) (hts : Statement.terminate ts = before ++ previous :: t :: behind)
    (hq : isQuote previous = false) : TableName t := by
  unfold Statement.terminate at hts
  split at hts
  · exact tableName_of_scanned h hts hq
  -- a semicolon was put behind the last token; it is a name itself, and the others are scanned
  · rcases List.eq_nil_or_concat behind with rfl | ⟨behind, last, rfl⟩
    · have hlast : ts ++ [";"] = (before ++ [previous]) ++ [t] := by simpa using hts
      have ht := (List.append_inj' hlast rfl).2
      cases ht
      exact .inl (.inr ⟨';', by decide, rfl⟩)
    · have hinit : ts ++ [";"] = (before ++ previous :: t :: behind) ++ [last] := by
        simpa using hts
      exact tableName_of_scanned h (List.append_inj' hinit rfl).1 hq

/-! ### Where the names of tables stand -/

namespace Expr

theorem Reads.suffix {p : Phrase} {ts rest : List Token} (h : Reads p ts rest) : rest <:+ ts := by
  induction h with
  | paren _ ih => exact ((List.suffix_cons _ _).trans ih).trans (List.suffix_cons _ _)
  | @quoted q content rest _ => exact ⟨[q, content, q], rfl⟩
  | @call f a ts rest _ _ _ ih =>
    exact ((List.suffix_cons _ _).trans ih).trans ⟨[f, "("], rfl⟩
  | @name first e ts rest _ _ _ hn =>
    rcases run_readName_eq_ok hn with ⟨rfl, -⟩ | ⟨second, rfl, -⟩
    · exact List.suffix_cons _ _
    · exact ⟨[first, ".", second], rfl⟩
  | last _ _ ih => exact ih
  | @more e e' op tail ts mid mid' rest _ hn _ ih ih' =>
    refine ih'.trans (List.IsSuffix.trans ?_ ih)
    cases mid with
    | nil => cases hn
    | cons t us =>
      rcases nextOperator_eq_some hn with rfl | rfl | rfl
      · exact List.suffix_cons _ _
      · exact ⟨[t, "="], rfl⟩
      · exact ⟨[t, ">"], rfl⟩
  | expr _ ih => exact ih

end Expr

section Places

variable {α : Type} {item : Reader α} {ts rest : List Token}

theorem suffix_of_aliased {a : Aliased α}
    (h : ∀ x mid, Reader.run item ts = .ok (x, mid) → mid <:+ ts)
    (ha : Reader.run (Reader.aliased item) ts = .ok (a, rest)) : rest <:+ ts := by
  obtain ⟨mid, hi, ⟨-, -, rfl⟩ | ⟨k, name, -, -, rfl⟩⟩ := run_aliased_iff.mp ha
  · exact h _ _ hi
  · exact List.IsSuffix.trans ⟨[k, name], rfl⟩ (h _ _ hi)

theorem ReadsList.suffix {l : List α}
    (h : ∀ us a mid, Reader.run item us = .ok (a, mid) → mid <:+ us)
    (hl : ReadsList item l ts rest) : rest <:+ ts := by
  induction hl with
  | last ha _ => exact h _ _ _ ha
  | more ha _ ih => exact (ih.trans (List.suffix_cons _ _)).trans (h _ _ _ ha)

/-- Does a token that is no quote stand in front of `t` somewhere? -/
def BehindNoQuote (t : Token) (ts : List Token) : Prop :=
  ∃ before previous behind, ts = before ++ previous :: t :: behind ∧ isQuote previous = false

theorem BehindNoQuote.mono {t : Token} {us : List Token} (h : BehindNoQuote t us)
    (hs : us <:+ ts) : BehindNoQuote t ts := by
  obtain ⟨before, previous, behind, rfl, hq⟩ := h
  obtain ⟨front, rfl⟩ := hs
  exact ⟨front ++ before, previous, behind, by simp, hq⟩

/-- The first name of a list stands behind `previous`, the others behind commas. -/
theorem ReadsList.behindNoQuote {tables : List (Aliased String)} {previous : Token}
    (h : ReadsList (Reader.aliased Reader.token) tables ts rest)
    (hq : isQuote previous = false) :
    ∀ entry ∈ tables, BehindNoQuote entry.item (previous :: ts) := by
  have htoken : ∀ {us : List Token} {t : Token} {mid : List Token},
      Reader.run Reader.token us = .ok (t, mid) → mid <:+ us := by
    intro us t mid ht
    obtain rfl := run_token_iff.mp ht
    exact List.suffix_cons _ _
  induction h generalizing previous with
  | last ha _ =>
    obtain ⟨mid, hi, -⟩ := run_aliased_iff.mp ha
    obtain rfl := run_token_iff.mp hi
    intro entry he
    obtain rfl := List.mem_singleton.mp he
    exact ⟨[], previous, mid, rfl, hq⟩
  | more ha _ ih =>
    have hsuffix := suffix_of_aliased (fun _ _ => htoken) ha
    obtain ⟨mid, hi, -⟩ := run_aliased_iff.mp ha
    obtain rfl := run_token_iff.mp hi
    intro entry he
    rcases List.mem_cons.mp he with rfl | he
    · exact ⟨[], previous, mid, rfl, hq⟩
    · exact (ih (by decide) entry he).mono (hsuffix.trans (List.suffix_cons _ _))

theorem Select.behindNoQuote {q : Select} (h : Select.read ts = .ok (q, rest)) :
    ∀ entry ∈ q.tables, BehindNoQuote entry.item ts := by
  obtain ⟨ts1, ts2, -, -, -, -, tables, h1, h2, ht, -⟩ := Select.read_eq_ok_iff.mp h
  have hexpr : ∀ us e mid, Reader.run Expr.readExpr us = .ok (e, mid) → mid <:+ us :=
    fun us e mid he => (Expr.read_eq_ok_iff.mp he).suffix
  have hsuffix : ts1 <:+ ts :=
    h1.suffix fun us a mid ha => suffix_of_aliased (hexpr us) ha
  intro entry he
  rw [ht] at he
  rcases clause_eq_ok_iff.mp h2 with ⟨-, rfl, -⟩ | ⟨k, us, l, hk, rfl, hl, rfl⟩
  · simp at he
  · have hq : isQuote k = false := isQuote_of_isKeyword (by decide +kernel) hk
    exact ((run_commaList_iff.mp hl).behindNoQuote hq entry he).mono hsuffix

theorem Statement.behindNoQuote {st : Statement} (h : Statement.read ts = .ok (st, rest)) :
    ∀ entry ∈ st.select.tables, BehindNoQuote entry.item ts := by
  rcases Statement.read_eq_ok_iff.mp h with ⟨k, us, q, -, rfl, hq, rfl⟩ |
    ⟨k1, k2, name, k3, k4, us, q, -, -, -, -, -, rfl, hq, rfl⟩
  · exact fun entry he => (Select.behindNoQuote hq entry he).mono (List.suffix_cons _ _)
  · exact fun entry he =>
      (Select.behindNoQuote hq entry he).mono ⟨[k1, k2, name, k3, k4], rfl⟩

end Places

/-- No content of a quoted text is ever taken for the name of a table. -/
theorem tableName_of_parse {text : String} {st : Statement} (h : Statement.parse text = .ok st) :
    ∀ entry ∈ st.select.tables, TableName entry.item := by
  intro entry he
  obtain ⟨rest, hr⟩ := Statement.parse_eq_ok_iff.mp h
  obtain ⟨before, previous, behind, hts, hq⟩ := Statement.behindNoQuote hr entry he
  exact tableName_of_terminate (scanned_tokensOf text.toList) hts hq

/-! ### Questions as scripts -/

namespace Script

theorem trim_of_ends {c d : Char} {cs : List Char} (hc : Text.isBlank c = false)
    (hd : Text.isBlank d = false) : Text.trim (c :: cs ++ [d]) = c :: cs ++ [d] := by
  refine Text.trim_of_not_blank ?_ ?_
  · rintro _ ⟨⟩
    exact hc
  · intro e he
    rw [List.getLast?_concat] at he
    obtain rfl := Option.some.inj he
    exact hd

/-- One semicolon at the end makes one statement, whatever quotes there are. -/
theorem statements_of_semicolon {c : Char} {cs : List Char} (hb : Text.isBlank c = false)
    (h : ';' ∉ c :: cs) :
    statements (String.ofList (c :: cs ++ [';'])) = [String.ofList (c :: cs ++ [';'])] := by
  have htrim : Text.trim (c :: cs ++ [';']) = c :: cs ++ [';'] := trim_of_ends hb (by decide)
  have hblank : ∀ ds, Text.isBlankText (c :: ds) = false := by
    intro ds
    rw [Text.isBlankText, List.all_cons, hb, Bool.false_and]
  rw [statements_eq, String.toList_ofList, cut_append, cut_of_not_mem h]
  cases hq : (c :: cs).foldl quoteAfter none with
  | none =>
    have hcut : cut none [';'] = ([[]], []) := rfl
    rw [hcut]
    simp only [List.append_nil, List.nil_append, List.filterMap_cons, List.filterMap_nil]
    rw [statementOfPiece, hblank, if_neg (by decide), htrim]
    rfl
  | some q =>
    have hcut : cut (some q) [';'] = ([], [';']) := rfl
    rw [hcut]
    simp only [List.filterMap_nil, List.nil_append]
    rw [statementOfTail, List.cons_append, hblank, if_neg (by decide), ← List.cons_append, htrim]
    rfl

end Script

theorem semicolon_not_mem {t : Token} (h : TableName t) (ht : t ≠ ";") : ';' ∉ t.toList := by
  intro hmem
  rcases h with (⟨-, hall⟩ | ⟨c, -, rfl⟩) | hq
  · exact absurd (hall _ hmem) (by decide)
  · obtain rfl : ';' = c := by simpa using hmem
    exact ht rfl
  · rw [isQuote, Bool.or_eq_true, beq_iff_eq, beq_iff_eq] at hq
    rcases hq with rfl | rfl
    · exact absurd hmem (by decide)
    · exact absurd hmem (by decide)

/-- The question for a table is one statement.  Of a table that is called `;` the question ends
with its name. -/
theorem statements_readTable {t : Token} (h : TableName t) :
    ∃ rest, Script.statements (Run.readTable t) = ["SELECT * FROM " ++ rest] := by
  by_cases ht : t = ";"
  · subst ht
    exact ⟨";", by decide +kernel⟩
  · have hchars : Run.readTable t =
        String.ofList ('S' :: ("ELECT * FROM ".toList ++ t.toList) ++ [';']) := by
      rw [← String.toList_inj]
      simp [Run.readTable]
    have hmem : ';' ∉ 'S' :: ("ELECT * FROM ".toList ++ t.toList) := by
      have := semicolon_not_mem h ht
      simp [this]
    refine ⟨t ++ ";", ?_⟩
    rw [hchars, Script.statements_of_semicolon (by decide) hmem, ← hchars, Run.readTable,
      String.append_assoc]

end QueryTrace

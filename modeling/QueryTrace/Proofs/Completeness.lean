/-
Expressions are read from the tokens that spell them.

That the tokens a reader takes spell what it returns is one direction.  Here is the other: tokens
that spell an expression are read as it, wherever its parentheses stand, as long as its names are
words.

* `Expr.Phrase.Ends` — where a phrase may end: a name must not go on behind an operand, nor an
  operator behind an expression;
* `Expr.nextOperator_spelled` — an operator is read from each of its spellings, since no operand
  begins with the second half of one;
* `Expr.Spells.reads` — a phrase is read from its tokens wherever it may end;
* **`Expr.read_exactly_spelled`** — soundness and completeness of the reader of expressions.

Design notes: a numeral alone and two numerals around a point spell a number, and `Spells` lets
them spell no name.  A name that is a mark can be spelled too, but `x < = 1` is not read as a
comparison with a column `=`.  A word is never half an operator, a quote or a parenthesis.
-/
import QueryTrace.Proofs.Literals
import QueryTrace.Proofs.Sentences

namespace QueryTrace.Expr

open Token

/-! ### Where phrases begin and end -/

/-- Are all names in the phrase words? -/
def Phrase.Worded (p : Phrase) : Prop :=
  ∀ n ∈ Literals.names p, IsWord n

/-- May the phrase end in front of the tokens? -/
def Phrase.Ends : Phrase → List Token → Prop
  | operand _, rest => Stops rest
  | chain _ _, rest | expr _, rest => Stops rest ∧ nextOperator rest = .ok none

section Chains

variable {head e : Expr} {op : BinOp} {tail : Tail}

theorem Phrase.Worded.first (h : (chain head tail).Worded) : (operand head).Worded :=
  fun n hn => h n (List.mem_append_left _ hn)

theorem Phrase.Worded.behind (h : (chain head ((op, e) :: tail)).Worded) :
    (chain e tail).Worded :=
  fun n hn => h n (List.mem_append_right _ hn)

theorem Phrase.Worded.of_expr (h : (expr (ofChain head tail)).Worded) :
    (chain head tail).Worded := fun n hn => h n (by
  show n ∈ (ofChain head tail).names
  rwa [names_ofChain])

end Chains

variable {p : Phrase} {op : BinOp} {t : Token} {ts os us rest : List Token}

/-- A numeral opens neither an expression in parentheses nor a quoted text. -/
theorem opens_nothing_of_isNumeral (h : Text.isNumeral t = true) : t ≠ "(" ∧ isQuote t = false :=
  have hword := isWord_of_isNumeral h
  ⟨hword.ne_of_mark (c := '(') (by decide), IsName.isQuote_eq_false (.inl hword)⟩

/-- The tokens of a phrase do not begin with the second half of an operator. -/
theorem Spells.exists_head (h : Spells p ts) (hw : p.Worded) :
    ∃ t us, ts = t :: us ∧ t ≠ "=" ∧ t ≠ ">" := by
  have hword : ∀ {t : Token}, IsWord t → t ≠ "=" ∧ t ≠ ">" := fun ht =>
    ⟨ht.ne_of_mark (c := '=') (by decide), ht.ne_of_mark (c := '>') (by decide)⟩
  have hnumeral : ∀ {t : Token}, Text.isNumeral t = true → t ≠ "=" ∧ t ≠ ">" := fun ht =>
    hword (isWord_of_isNumeral ht)
  induction h with
  | paren _ _ => exact ⟨_, _, rfl, by decide, by decide⟩
  | quoted content hq =>
    refine ⟨_, _, rfl, ?_, ?_⟩ <;> rintro rfl <;> exact absurd hq (by decide)
  | call _ _ _ _ => exact ⟨_, _, rfl, hword (hw _ (List.mem_cons_self ..))⟩
  | number hn => exact ⟨_, _, rfl, hnumeral hn⟩
  | decimal hwhole _ => exact ⟨_, _, rfl, hnumeral hwhole⟩
  | column _ _ _ => exact ⟨_, _, rfl, hword (hw _ (List.mem_cons_self ..))⟩
  | qualified _ _ _ => exact ⟨_, _, rfl, hword (hw _ (List.mem_cons_self ..))⟩
  | last _ ih => exact ih hw.first
  | more _ _ _ ih _ =>
    obtain ⟨t, us, rfl, hne⟩ := ih hw.first
    exact ⟨t, _, rfl, hne⟩
  | expr _ ih => exact ih hw.of_expr

/-! ### Operators -/

theorem operatorOfToken_ne (h : operatorOfToken t = some op) :
    t ≠ "!" ∧ t ≠ "<" ∧ t ≠ ">" ∧ t ≠ "." ∧ t ≠ "(" := by
  have hnone : ∀ m ∈ ["!", "<", ">", ".", "("], operatorOfToken m = none := by decide +kernel
  have hne : ∀ m ∈ ["!", "<", ">", ".", "("], t ≠ m := by
    rintro m hm rfl
    rw [hnone t hm] at h
    cases h
  exact ⟨hne _ (by simp), hne _ (by simp), hne _ (by simp), hne _ (by simp), hne _ (by simp)⟩

/-- An operator is read from each of its spellings. -/
theorem nextOperator_spelled (h : op.Spells os) (he : t ≠ "=") (hg : t ≠ ">") (us : List Token) :
    nextOperator (os ++ t :: us) = .ok (some (op, t :: us)) := by
  have he' : (t :: us).head? ≠ some "=" := fun hh => he (Option.some.inj hh)
  have hg' : (t :: us).head? ≠ some ">" := fun hh => hg (Option.some.inj hh)
  rcases h with h | ⟨m, rfl, hm⟩
  · simp only [BinOp.apart, List.mem_cons, Prod.mk.injEq, List.not_mem_nil, or_false] at h
    rcases h with ⟨rfl, rfl⟩ | ⟨rfl, rfl⟩ | ⟨rfl, rfl⟩ | ⟨rfl, rfl⟩ | ⟨rfl, rfl⟩ | ⟨rfl, rfl⟩
    · rfl
    · rfl
    · rfl
    · rfl
    · exact nextOperator_lt he' hg'
    · exact nextOperator_gt he'
  · obtain ⟨h1, h2, h3, -⟩ := operatorOfToken_ne hm
    rw [List.singleton_append, nextOperator_single h1 h2 h3, hm]
    rfl

theorem stops_spelled (h : op.Spells os) (us : List Token) : Stops (os ++ us) := by
  rcases h with h | ⟨m, rfl, hm⟩
  · have hall : ∀ x ∈ BinOp.apart, x.2 ≠ [] ∧ x.2.head? ≠ some "." ∧ x.2.head? ≠ some "(" := by
      decide
    obtain ⟨hne, hpoint, hparen⟩ := hall _ h
    obtain ⟨m, ms, rfl⟩ := List.exists_cons_of_ne_nil hne
    exact ⟨hpoint, hparen⟩
  · obtain ⟨-, -, -, hpoint, hparen⟩ := operatorOfToken_ne hm
    exact ⟨fun hh => hpoint (Option.some.inj hh), fun hh => hparen (Option.some.inj hh)⟩

/-! ### Completeness -/

theorem Spells.expr_of_operand {e : Expr} (h : Spells (.operand e) ts) : SpellsExpr e ts := by
  have he := Spells.expr (.last h)
  rwa [ofChain_nil] at he

theorem reads_alone (hp : t ≠ "(") (hq : isQuote t = false) (hs : Stops rest) :
    Reads (.operand (if Text.isNumeral t then .number t else .column t)) (t :: rest) rest :=
  .name hp hq hs.2 (run_readName_alone t hs.1)

theorem reads_point (hp : t ≠ "(") (hq : isQuote t = false) (name : Token) (rest : List Token) :
    Reads (.operand (if Text.isNumeral t && Text.isNumeral name then .number (t ++ "." ++ name)
      else .qualified t name)) (t :: "." :: name :: rest) rest :=
  .name hp hq (by simp) (run_readName_point t name rest)

/-- By induction on the spelling: what stands behind a part of a phrase is a parenthesis, an
operator or what stands behind the phrase, and the part may end in front of each. -/
theorem Spells.reads (h : Spells p ts) (hw : p.Worded) (hr : p.Ends rest) :
    Reads p (ts ++ rest) rest := by
  have hclose : ∀ us, Stops (")" :: us) ∧ nextOperator (")" :: us) = .ok none := fun us =>
    ⟨stops_close us, nextOperator_close us⟩
  induction h generalizing rest with
  | paren _ ih =>
    have hinner := ih hw (hclose rest)
    simpa using Reads.paren hinner
  | quoted content hq => exact .quoted hq
  | @call f a ts hf hq _ ih =>
    have hinner := ih (fun n hn => hw n (List.mem_cons_of_mem _ hn)) (hclose rest)
    simpa using Reads.call hf hq hinner
  | number hn =>
    obtain ⟨hp, hq⟩ := opens_nothing_of_isNumeral hn
    have halone := reads_alone hp hq hr
    rwa [hn] at halone
  | @decimal whole fraction hwhole hf =>
    obtain ⟨hp, hq⟩ := opens_nothing_of_isNumeral hwhole
    have hpoint := reads_point hp hq fraction rest
    rwa [hwhole, hf] at hpoint
  | column hp hq hn =>
    have halone := reads_alone hp hq hr
    rwa [hn] at halone
  | @qualified table name hp hq hn =>
    have hpoint := reads_point hp hq name rest
    rwa [hn] at hpoint
  | last _ ih => exact .last (ih hw.first hr.1) hr.2
  | @more e e' op tail ts os us _ ho hus ih ih' =>
    obtain ⟨t, vs, rfl, he, hg⟩ := hus.exists_head hw.behind
    rw [List.append_assoc, List.append_assoc]
    exact .more (ih hw.first (stops_spelled ho _)) (nextOperator_spelled ho he hg _)
      (ih' hw.behind hr)
  | expr _ ih => exact .expr (ih hw.of_expr hr)

/-- **The reader of expressions reads what is spelled.**  The tokens that it takes spell what it
returns, and tokens that spell an expression whose names are words are read as it, all of them. -/
theorem read_exactly_spelled :
    (∀ ts e rest, Expr.read ts = .ok (e, rest) → ∃ front, ts = front ++ rest ∧ SpellsExpr e front) ∧
    ∀ ts e, SpellsExpr e ts → (∀ n ∈ e.names, IsWord n) → Expr.read ts = .ok (e, []) := by
  refine ⟨fun ts e rest h => ?_, fun ts e h hw => ?_⟩
  · obtain ⟨front, hts, hs, -⟩ := takes_expr ts e rest h
    exact ⟨front, hts, hs⟩
  · have hend : (Phrase.expr e).Ends [] := ⟨⟨by simp, by simp⟩, rfl⟩
    have hreads := h.reads hw hend
    rw [List.append_nil] at hreads
    exact read_eq_ok_iff.mpr hreads

/-- The tokens of `((a)) <= f(b.c) <> 3.14` are read as its tree, without the parentheses. -/
theorem read_exactly_spelled_comparisons :
    let ts := ["(", "(", "a", ")", ")", "<", "=", "f", "(", "b", ".", "c", ")", "<", ">",
      "3", ".", "14"]
    let e := binary .ne (binary .le (column "a") (aggregate "f" (qualified "b" "c")))
      (number "3.14")
    SpellsExpr e ts ∧ (∀ n ∈ e.names, IsWord n) ∧ Expr.read ts = .ok (e, []) ∧
      ∃ front, ts = front ++ [] ∧ SpellsExpr e front := by
  intro ts e
  have ha : Spells (.operand (column "a")) ["a"] := .column (by decide) (by decide) (by decide)
  have hparens : Spells (.operand (column "a")) ["(", "(", "a", ")", ")"] :=
    .paren (Spells.paren ha.expr_of_operand).expr_of_operand
  have hb : Spells (.operand (qualified "b" "c")) ["b", ".", "c"] :=
    .qualified (by decide) (by decide) (by decide)
  have hf : Spells (.operand (aggregate "f" (qualified "b" "c"))) ["f", "(", "b", ".", "c", ")"] :=
    .call (by decide) (by decide) hb.expr_of_operand
  have hn : Spells (.operand (number ("3" ++ "." ++ "14"))) ["3", ".", "14"] :=
    .decimal (by decide) (by decide)
  have hle : BinOp.le.Spells ["<", "="] := .inl (by decide)
  have hne : BinOp.ne.Spells ["<", ">"] := .inl (by decide)
  have hspells := Spells.expr (.more hparens hle (.more hf hne (.last hn)))
  have hsplit : splitLoosest [(.le, aggregate "f" (qualified "b" "c")), (.ne, number "3.14")] =
      some (.ne, [(.le, aggregate "f" (qualified "b" "c"))], number "3.14", []) := rfl
  rw [show "3" ++ "." ++ "14" = "3.14" from rfl, ofChain_eq hsplit, ofChain_pair,
    ofChain_nil] at hspells
  have hwords : ∀ n ∈ e.names, IsWord n := by decide
  have hread := read_exactly_spelled.2 ts e hspells hwords
  exact ⟨hspells, hwords, hread, read_exactly_spelled.1 ts e [] hread⟩

end QueryTrace.Expr

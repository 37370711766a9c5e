/-
Reading two inputs that differ in their quoted texts.

A reader that takes a quote for a quote never looks at what stands between two of them.  Two inputs
that differ only there are read alike, and the trees differ only in their texts.

* `Alike` — the two inputs, with the contents of the quoted texts in each; it may end at a quote
  that is never closed;
* `Refill` — what was read from the one input and from the other;
* **`Reads.refill`** — an expression without a quote among its names is read from both;
* `Steady` — the same of any reader, and **`steady_statement`**: the reader of statements has it.

Design notes: the contents are listed beside the tokens, so the same statement says that the texts
of a tree are the contents in their order, that new contents end up in the same places, and that no
reader gets past a quote that is never closed.
-/
import QueryTrace.Proofs.Grammar
import QueryTrace.Proofs.Literals

namespace QueryTrace

open Token

/-! ### Inputs that are alike -/

/-- Tokens that end here, or go on with a quote that has no closing quote behind its content. -/
def Blocked (stop : List Token) : Prop :=
  stop = [] ∨ ∃ q us, isQuote q = true ∧ stop = q :: us ∧ ∀ c vs, us ≠ c :: q :: vs

/-- The tokens differ only in the contents of quoted texts, which are listed, and both end with
`stop`. -/
inductive Alike (stop : List Token) :
    List String → List String → List Token → List Token → Prop where
  | stop (h : Blocked stop) : Alike stop [] [] stop stop
  | name {t : Token} {cs cs' : List String} {ts ts' : List Token} (ht : isQuote t = false)
      (rest : Alike stop cs cs' ts ts') : Alike stop cs cs' (t :: ts) (t :: ts')
  | quoted {q c c' : Token} {cs cs' : List String} {ts ts' : List Token} (hq : isQuote q = true)
      (rest : Alike stop cs cs' ts ts') :
      Alike stop (c :: cs) (c' :: cs') (q :: c :: q :: ts) (q :: c' :: q :: ts')

variable {stop : List Token} {t : Token} {cs cs' : List String} {ts ts' : List Token}

theorem Alike.head?_eq (h : Alike stop cs cs' ts ts') : ts'.head? = ts.head? := by
  cases h <;> rfl

theorem Alike.of_name {us : List Token} (h : Alike stop cs cs' (t :: ts) us)
    (ht : isQuote t = false) : ∃ ts', us = t :: ts' ∧ Alike stop cs cs' ts ts' := by
  cases h with
  | stop hb =>
    rcases hb with hb | ⟨q, us, hq, hb, -⟩
    · cases hb
    · cases hb
      rw [ht] at hq
      cases hq
  | name _ rest => exact ⟨_, rfl, rest⟩
  | quoted hq _ =>
    rw [ht] at hq
    cases hq

theorem Alike.of_quoted {q c : Token} {us : List Token}
    (h : Alike stop cs cs' (q :: c :: q :: ts) us) (hq : isQuote q = true) :
    ∃ c' ds ds' ts', us = q :: c' :: q :: ts' ∧ cs = c :: ds ∧ cs' = c' :: ds' ∧
      Alike stop ds ds' ts ts' := by
  cases h with
  | stop hb =>
    rcases hb with hb | ⟨q', us, -, hb, hne⟩
    · cases hb
    · cases hb
      exact (hne c ts rfl).elim
  | name ht _ =>
    rw [ht] at hq
    cases hq
  | quoted _ rest => exact ⟨_, _, _, _, rfl, rfl, rfl, rest⟩

theorem Alike.stop_suffix (h : Alike stop cs cs' ts ts') : stop <:+ ts := by
  induction h with
  | stop _ => exact List.suffix_refl _
  | name _ _ ih => exact ih.trans (List.suffix_cons _ _)
  | @quoted q c _ _ _ _ _ _ _ ih => exact ih.trans ⟨[q, c, q], rfl⟩

theorem Alike.getLast?_eq (h : Alike stop cs cs' ts ts') : ts'.getLast? = ts.getLast? := by
  induction h with
  | stop _ => rfl
  | name _ _ ih => rw [List.getLast?_cons, List.getLast?_cons, ih]
  | quoted _ _ ih => simp only [List.getLast?_cons, ih, Option.getD_some]

theorem Alike.append {stop' us : List Token} (h : Alike stop cs cs' ts ts')
    (hs : Alike stop' [] [] (stop ++ us) (stop ++ us)) :
    Alike stop' cs cs' (ts ++ us) (ts' ++ us) := by
  induction h with
  | stop _ => exact hs
  | name ht _ ih => exact .name ht ih
  | quoted hq _ ih => exact .quoted hq ih

/-! ### Operators -/

namespace Expr

/-- The operator at the front of `t :: ts`, with as many tokens left of `us` as there are left of
`ts`. -/
def operatorAlong (t : Token) (ts us : List Token) :
    Except SyntaxError (Option (BinOp × List Token)) :=
  (nextOperator (t :: ts)).map (Option.map fun x => (x.1, us.drop (ts.length - x.2.length)))

theorem operatorAlong_single {op : BinOp} (h : nextOperator (t :: ts) = .ok (some (op, ts)))
    (us : List Token) : operatorAlong t ts us = .ok (some (op, us)) := by
  rw [operatorAlong, h]
  simp [Except.map]

theorem operatorAlong_double {op : BinOp} {m : Token} {vs : List Token}
    (h : nextOperator (t :: m :: ts) = .ok (some (op, ts))) :
    operatorAlong t (m :: ts) (m :: vs) = .ok (some (op, vs)) := by
  rw [operatorAlong, h]
  simp [Except.map]

/-- Which operator it is, its first token and the one behind that decide. -/
theorem nextOperator_of_head {us : List Token} (h : us.head? = ts.head?) :
    nextOperator (t :: us) = operatorAlong t ts us := by
  cases operatorAt t ts with
  | double _ hop =>
    obtain ⟨us, rfl⟩ := List.head?_eq_some_iff.mp h
    rw [hop, operatorAlong_double (hop _)]
  | single _ hop => rw [hop us h, operatorAlong_single (hop ts rfl)]
  | lone _ hop =>
    rw [operatorAlong, hop us h, hop ts rfl]
    rfl
  | none hop =>
    rw [operatorAlong, hop us, hop ts]
    rfl

end Expr

open QueryTrace.Expr

theorem Alike.nextOperator_none (h : Alike stop cs cs' ts ts')
    (hn : nextOperator ts = .ok none) : nextOperator ts' = .ok none := by
  cases h with
  | stop _ => exact hn
  | name _ rest =>
    rw [nextOperator_of_head rest.head?_eq, operatorAlong, hn]
    rfl
  | quoted hq _ => exact nextOperator_quote hq _

theorem Alike.nextOperator_some {op : BinOp} {mid : List Token} (h : Alike stop cs cs' ts ts')
    (hn : nextOperator ts = .ok (some (op, mid))) :
    ∃ mid', nextOperator ts' = .ok (some (op, mid')) ∧ Alike stop cs cs' mid mid' := by
  cases h with
  | stop hb =>
    rcases hb with rfl | ⟨q, us, hq, rfl, -⟩
    · cases hn
    · rw [nextOperator_quote hq] at hn
      cases hn
  | @name t cs cs' us us' ht rest =>
    refine ⟨us'.drop (us.length - mid.length), ?_, ?_⟩
    · rw [nextOperator_of_head rest.head?_eq, operatorAlong, hn]
      rfl
    have hmark : ∀ m, isQuote m = false → us = m :: mid →
        Alike stop cs cs' mid (us'.drop (us.length - mid.length)) := by
      rintro m hm rfl
      obtain ⟨mid', rfl, hmid⟩ := rest.of_name hm
      simpa using hmid
    rcases nextOperator_eq_some hn with rfl | he | he
    · simpa using rest
    · exact hmark "=" (by decide) he
    · exact hmark ">" (by decide) he
  | quoted hq _ =>
    rw [nextOperator_quote hq] at hn
    cases hn

/-! ### Phrases -/

/-- `a` was read from the one input and `a'` from the other: they differ only in their texts, which
are the first contents of the inputs, and what is left is alike again. -/
structure Refill (stop : List Token) {α : Type} [Literals α] (a a' : α) (cs cs' : List String)
    (rest rest' : List Token) : Prop where
  blank_eq : blank a' = blank a
  alike : ∃ ds ds', cs = texts a ++ ds ∧ cs' = texts a' ++ ds' ∧ Alike stop ds ds' rest rest'

section Refill

variable {α β γ : Type} [Literals α] [Literals β] [Literals γ] {a a' : α} {b b' : β} {c c' : γ}
  {rest rest' us : List Token}

/-- A token that is no quote can be taken off both inputs. -/
theorem Refill.take (h : Refill stop a a' cs cs' (t :: rest) us) (ht : isQuote t = false) :
    ∃ rest', us = t :: rest' ∧ Refill stop a a' cs cs' rest rest' := by
  obtain ⟨hblank, ds, ds', hcs, hcs', ha⟩ := h
  obtain ⟨rest', rfl, hrest⟩ := ha.of_name ht
  exact ⟨rest', rfl, hblank, ds, ds', hcs, hcs', hrest⟩

theorem Refill.head?_eq (h : Refill stop a a' cs cs' rest rest') : rest'.head? = rest.head? := by
  obtain ⟨-, ds, ds', -, -, hrest⟩ := h
  exact hrest.head?_eq

/-- What is made of the results has the same texts. -/
theorem Refill.map (h : Refill stop a a' cs cs' rest rest') (hb : blank b' = blank b)
    (ht : texts b = texts a) (ht' : texts b' = texts a') :
    Refill stop b b' cs cs' rest rest' := by
  obtain ⟨-, ds, ds', hcs, hcs', hrest⟩ := h
  exact ⟨hb, ds, ds', ht ▸ hcs, ht' ▸ hcs', hrest⟩

/-- What is made of two results, the one read behind the other, has the texts of both. -/
theorem Refill.append {ds ds' : List String} (hcs : cs = texts a ++ ds)
    (hcs' : cs' = texts a' ++ ds') (h : Refill stop b b' ds ds' rest rest')
    (hc : blank c' = blank c) (ht : texts c = texts a ++ texts b)
    (ht' : texts c' = texts a' ++ texts b') : Refill stop c c' cs cs' rest rest' := by
  obtain ⟨-, es, es', hds, hds', hrest⟩ := h
  refine ⟨hc, es, es', ?_, ?_, hrest⟩
  · rw [hcs, hds, ht, List.append_assoc]
  · rw [hcs', hds', ht', List.append_assoc]

end Refill

namespace Expr

theorem Phrase.of_blank_operand {p : Phrase} {e : Expr}
    (h : Literals.blank p = Literals.blank (operand e)) :
    ∃ e', p = operand e' ∧ e'.blank = e.blank := by
  cases p with
  | operand e' => exact ⟨e', rfl, Phrase.operand.inj h⟩
  | chain head tail => cases h
  | expr e' => cases h

theorem Phrase.of_blank_chain {p : Phrase} {head : Expr} {tail : Tail}
    (h : Literals.blank p = Literals.blank (chain head tail)) :
    ∃ head' tail', p = chain head' tail' ∧ head'.blank = head.blank ∧
      Literals.blank tail' = Literals.blank tail := by
  cases p with
  | operand e' => cases h
  | chain head' tail' => exact ⟨head', tail', rfl, Phrase.chain.inj h⟩
  | expr e' => cases h

theorem Phrase.of_blank_expr {p : Phrase} {e : Expr}
    (h : Literals.blank p = Literals.blank (expr e)) :
    ∃ e', p = expr e' ∧ e'.blank = e.blank := by
  cases p with
  | operand e' => cases h
  | chain head tail => cases h
  | expr e' => exact ⟨e', rfl, Phrase.expr.inj h⟩

/-- A name is read from both inputs, and what is behind a point is read too if it is no quote. -/
theorem refill_name {first : Token} {e : Expr} {rest : List Token}
    (hn : Reader.run readName (first :: ts) = .ok (e, rest)) (hp : Plain e)
    (h : Alike stop cs cs' ts ts') :
    ∃ rest', Reader.run readName (first :: ts') = .ok (e, rest') ∧
      Refill stop (Phrase.operand e) (Phrase.operand e) cs cs' rest rest' := by
  by_cases hpoint : ts.head? = some "."
  · obtain ⟨us, rfl⟩ := List.head?_eq_some_iff.mp hpoint
    obtain ⟨us', rfl, hus⟩ := h.of_name (by decide)
    cases us with
    | nil => cases hn
    | cons second us =>
      rw [run_readName_point] at hn
      cases hn
      have hs : isQuote second = false := by
        cases hd : Text.isNumeral second with
        | true => exact IsName.isQuote_eq_false (.inl (isWord_of_isNumeral hd))
        | false =>
          rw [hd, Bool.and_false] at hp
          exact hp second (by simp [Literals.names, names])
      obtain ⟨rest', rfl, hrest⟩ := hus.of_name hs
      refine ⟨rest', run_readName_point first second rest', rfl, cs, cs', ?_, ?_, hrest⟩
      all_goals cases Text.isNumeral first && Text.isNumeral second <;> rfl
  · rw [run_readName_alone first hpoint] at hn
    cases hn
    refine ⟨ts', run_readName_alone first (h.head?_eq ▸ hpoint), rfl, cs, cs', ?_, ?_, h⟩
    all_goals cases Text.isNumeral first <;> rfl

/-- **A phrase without a quote among its names is read from both inputs.**  Every token that is
taken from the one is taken from the other, except for the contents. -/
theorem Reads.refill {p : Phrase} {rest : List Token} (h : Reads p ts rest) (hp : Plain p)
    (ha : Alike stop cs cs' ts ts') :
    ∃ p' rest', Reads p' ts' rest' ∧ Refill stop p p' cs cs' rest rest' := by
  induction h generalizing cs cs' ts' with
  | paren _ ih =>
    obtain ⟨us', rfl, hus⟩ := ha.of_name (by decide)
    obtain ⟨p', mid', hr, hmid⟩ := ih hp hus
    obtain ⟨e', rfl, he⟩ := Phrase.of_blank_expr hmid.blank_eq
    obtain ⟨rest', rfl, hrest⟩ := hmid.take (by decide)
    exact ⟨.operand e', rest', .paren hr, hrest.map (congrArg Phrase.operand he) rfl rfl⟩
  | quoted hq =>
    obtain ⟨c', ds, ds', rest', rfl, hcs, hcs', hrest⟩ := ha.of_quoted hq
    exact ⟨.operand (.text c'), rest', .quoted hq, rfl, ds, ds', hcs, hcs', hrest⟩
  | @call f a ts rest hf hq _ ih =>
    have hpa : Plain (Phrase.expr a) := fun n hn => hp n (List.mem_cons_of_mem f hn)
    obtain ⟨us', rfl, hus⟩ := ha.of_name hq
    obtain ⟨vs', rfl, hvs⟩ := hus.of_name (by decide)
    obtain ⟨p', mid', hr, hmid⟩ := ih hpa hvs
    obtain ⟨a', rfl, hb⟩ := Phrase.of_blank_expr hmid.blank_eq
    obtain ⟨rest', rfl, hrest⟩ := hmid.take (by decide)
    refine ⟨.operand (.aggregate f a'), rest', .call hf hq hr, hrest.map ?_ rfl rfl⟩
    exact congrArg (fun b => Phrase.operand (.aggregate f b)) hb
  | @name first e ts rest hf hq hc hn =>
    obtain ⟨us', rfl, hus⟩ := ha.of_name hq
    obtain ⟨rest', hn', hrefill⟩ := refill_name hn hp hus
    exact ⟨.operand e, rest', .name hf hq (hus.head?_eq ▸ hc) hn', hrefill⟩
  -- the operator behind an operand is told by two tokens, and these are no contents
  | @last e ts rest _ hn ih =>
    have hpe : Plain (Phrase.operand e) := fun n hn => hp n (List.mem_append_left _ hn)
    obtain ⟨p', rest', hr, hrest⟩ := ih hpe ha
    obtain ⟨e', rfl, he⟩ := Phrase.of_blank_operand hrest.blank_eq
    obtain ⟨ds, ds', -, -, halike⟩ := hrest.alike
    refine ⟨.chain e' [], rest', .last hr (halike.nextOperator_none hn), hrest.map ?_ ?_ ?_⟩
    · exact congrArg (fun b => Phrase.chain b []) he
    · exact List.append_nil e.texts
    · exact List.append_nil e'.texts
  | @more e₁ e₂ op tail ts mid mid' rest _ hn _ ih₁ ih₂ =>
    have hp₁ : Plain (Phrase.operand e₁) := fun n hn => hp n (List.mem_append_left _ hn)
    have hp₂ : Plain (Phrase.chain e₂ tail) := fun n hn => hp n (List.mem_append_right _ hn)
    obtain ⟨p₁, us, hr₁, hblank₁, ds, ds', hcs, hcs', hus⟩ := ih₁ hp₁ ha
    obtain ⟨e₁', rfl, he₁⟩ := Phrase.of_blank_operand hblank₁
    obtain ⟨us', hn', hus'⟩ := hus.nextOperator_some hn
    obtain ⟨p₂, rest', hr₂, hrest⟩ := ih₂ hp₂ hus'
    obtain ⟨e₂', tail', rfl, he₂, htail⟩ := Phrase.of_blank_chain hrest.blank_eq
    refine ⟨.chain e₁' ((op, e₂') :: tail'), rest', .more hr₁ hn' hr₂,
      hrest.append hcs hcs' ?_ rfl rfl⟩
    show Phrase.chain e₁'.blank ((op, e₂'.blank) :: Literals.blank tail') = _
    rw [he₁, he₂, htail]
    rfl
  -- both chains have their operators in the same places, so they make the same tree
  | @expr head tail ts rest _ ih =>
    have hpc : Plain (Phrase.chain head tail) := by
      intro n hn
      refine hp n ?_
      show n ∈ (ofChain head tail).names
      rw [names_ofChain]
      exact hn
    obtain ⟨p', rest', hr, hrest⟩ := ih hpc ha
    obtain ⟨head', tail', rfl, hhead, htail⟩ := Phrase.of_blank_chain hrest.blank_eq
    refine ⟨.expr (ofChain head' tail'), rest', .expr hr, hrest.map ?_ ?_ ?_⟩
    · show Phrase.expr (ofChain head' tail').blank = Phrase.expr (ofChain head tail).blank
      rw [blank_ofChain, blank_ofChain, hhead, htail]
    · exact texts_ofChain head tail
    · exact texts_ofChain head' tail'

end Expr

/-! ### Readers of statements -/

/-- What the reader reads from an input, if no name in it is a quote, it reads from every input that
is alike, with other texts. -/
def Steady (stop : List Token) {α : Type} [Literals α]
    (read : List Token → Except SyntaxError (α × List Token)) : Prop :=
  ∀ {ts rest : List Token} {a : α}, read ts = .ok (a, rest) → Plain a →
    ∀ {cs cs' : List String} {ts' : List Token}, Alike stop cs cs' ts ts' →
      ∃ a' rest', read ts' = .ok (a', rest') ∧ Refill stop a a' cs cs' rest rest'

theorem Alike.nextIsKeyword_eq (h : Alike stop cs cs' ts ts') (keyword : String) :
    nextIsKeyword keyword ts' = nextIsKeyword keyword ts := by
  rw [nextIsKeyword, nextIsKeyword, h.head?_eq]

theorem Refill.nextIsKeyword_eq {α : Type} [Literals α] {a a' : α} {rest rest' : List Token}
    (h : Refill stop a a' cs cs' rest rest') (keyword : String) :
    nextIsKeyword keyword rest' = nextIsKeyword keyword rest := by
  rw [nextIsKeyword, nextIsKeyword, h.head?_eq]

section Readers

variable {α : Type} [Literals α] {item : Reader α}

theorem steady_expr : Steady stop Expr.read := by
  intro ts rest e h hp cs cs' ts' ha
  obtain ⟨p', rest', hr, hrest⟩ := (read_eq_ok_iff.mp h).refill hp ha
  obtain ⟨e', rfl, he⟩ := Phrase.of_blank_expr hrest.blank_eq
  exact ⟨e', rest', read_eq_ok_iff.mpr hr, hrest.map he rfl rfl⟩

theorem steady_token : Steady stop (Reader.run Reader.token) := by
  intro ts rest t h hp cs cs' ts' ha
  obtain rfl := run_token_iff.mp h
  obtain ⟨rest', rfl, hrest⟩ := ha.of_name (hp t (List.mem_singleton_self t))
  exact ⟨t, rest', run_token_iff.mpr rfl, rfl, cs, cs', rfl, rfl, hrest⟩

theorem steady_aliased (hi : Steady stop (Reader.run item)) :
    Steady stop (Reader.run (Reader.aliased item)) := by
  intro ts rest a h hp cs cs' ts' ha
  obtain ⟨mid, hx, hname⟩ := run_aliased_iff.mp h
  have hpx : Plain a.item := fun n hn => hp n (List.mem_append_left _ hn)
  obtain ⟨x', mid', hx', hrefill⟩ := hi hx hpx ha
  have hmid : Refill stop a ⟨x', a.name?⟩ cs cs' mid mid' :=
    hrefill.map (congrArg (fun x => (⟨x, a.name?⟩ : Aliased α)) hrefill.blank_eq) rfl rfl
  rcases hname with ⟨hk, hn, rfl⟩ | ⟨k, name, hk, hn, rfl⟩
  · refine ⟨⟨x', a.name?⟩, mid', run_aliased_iff.mpr ?_, hmid⟩
    exact ⟨mid', hx', .inl ⟨(hmid.nextIsKeyword_eq "AS").trans hk, hn, rfl⟩⟩
  · have hq : isQuote name = false := by
      refine hp name (List.mem_append_right _ ?_)
      rw [hn]
      exact List.mem_singleton_self name
    obtain ⟨us', rfl, hus⟩ := hmid.take (isQuote_of_isKeyword (by decide +kernel) hk)
    obtain ⟨rest', rfl, hrest⟩ := hus.take hq
    refine ⟨⟨x', a.name?⟩, rest', run_aliased_iff.mpr ?_, hrest⟩
    exact ⟨_, hx', .inr ⟨k, name, hk, hn, rfl⟩⟩

theorem texts_singleton (a : α) : texts [a] = texts a :=
  List.append_nil _

theorem ReadsList.refill (hi : Steady stop (Reader.run item)) {l : List α} {rest : List Token}
    (h : ReadsList item l ts rest) (hp : Plain l) (ha : Alike stop cs cs' ts ts') :
    ∃ l' rest', ReadsList item l' ts' rest' ∧ Refill stop l l' cs cs' rest rest' := by
  induction h generalizing cs cs' ts' with
  | @last a ts rest hx hn =>
    obtain ⟨x', rest', hx', hrest⟩ := hi hx (plain_cons.mp hp).1 ha
    refine ⟨[x'], rest', .last hx' (hrest.head?_eq ▸ hn), hrest.map ?_ ?_ ?_⟩
    · rw [blank_cons, blank_cons, hrest.blank_eq]
    · exact texts_singleton a
    · exact texts_singleton x'
  | more hx _ ih =>
    obtain ⟨x', us, hx', hblank, ds, ds', hcs, hcs', hus⟩ := hi hx (plain_cons.mp hp).1 ha
    obtain ⟨mid', rfl, hmid⟩ := hus.of_name (by decide)
    obtain ⟨l', rest', hl, hrest⟩ := ih (plain_cons.mp hp).2 hmid
    refine ⟨x' :: l', rest', .more hx' hl, hrest.append hcs hcs' ?_ rfl rfl⟩
    rw [blank_cons, blank_cons, hblank, hrest.blank_eq]

theorem steady_commaList (hi : Steady stop (Reader.run item)) :
    Steady stop (Reader.run (Reader.commaList item)) := by
  intro ts rest l h hp cs cs' ts' ha
  obtain ⟨l', rest', hl, hrefill⟩ := (run_commaList_iff.mp h).refill hi hp ha
  exact ⟨l', rest', run_commaList_iff.mpr hl, hrefill⟩

theorem steady_sortKey : Steady stop (Reader.run SortKey.read) := by
  intro ts rest key h hp cs cs' ts' ha
  obtain ⟨mid, he, hdir⟩ := run_sortKey_iff.mp h
  obtain ⟨e', mid', he', hrefill⟩ := steady_expr he hp ha
  have hmid : Refill stop key ⟨e', key.ascending⟩ cs cs' mid mid' :=
    hrefill.map (congrArg (fun x => (⟨x, key.ascending⟩ : SortKey)) hrefill.blank_eq) rfl rfl
  rcases hdir with ⟨hd, hasc, hn, rfl⟩ | ⟨k, hk, hn, rfl⟩ | ⟨k, hd, hk, hn, rfl⟩
  · refine ⟨⟨e', key.ascending⟩, mid', run_sortKey_iff.mpr ⟨mid', he', .inl ?_⟩, hmid⟩
    exact ⟨(hmid.nextIsKeyword_eq "DESC").trans hd, (hmid.nextIsKeyword_eq "ASC").trans hasc, hn,
      rfl⟩
  · obtain ⟨rest', rfl, hrest⟩ := hmid.take (isQuote_of_isKeyword (by decide +kernel) hk)
    refine ⟨⟨e', key.ascending⟩, rest', run_sortKey_iff.mpr ⟨_, he', .inr (.inl ?_)⟩, hrest⟩
    exact ⟨k, hk, hn, rfl⟩
  · obtain ⟨rest', rfl, hrest⟩ := hmid.take (isQuote_of_isKeyword (by decide +kernel) hk)
    refine ⟨⟨e', key.ascending⟩, rest', run_sortKey_iff.mpr ⟨_, he', .inr (.inr ?_)⟩, hrest⟩
    exact ⟨k, hd, hk, hn, rfl⟩

theorem plain_some {a : α} (h : Plain (some a)) : Plain a :=
  fun n hn => h n (List.mem_append_left _ hn)

theorem texts_some (a : α) : texts (some a) = texts a :=
  texts_singleton a

theorem steady_clause {keyword : String}
    (hk : (isKeyword keyword "\"" || isKeyword keyword "'") = false)
    {body : List Token → Except SyntaxError (α × List Token)} (hb : Steady stop body) :
    Steady stop (clause keyword body) := by
  intro ts rest c h hp cs cs' ts' ha
  rcases clause_eq_ok_iff.mp h with ⟨hn, rfl, rfl⟩ | ⟨k, us, a, hkey, rfl, hbody, rfl⟩
  · refine ⟨none, ts', clause_eq_ok_iff.mpr (.inl ⟨?_, rfl, rfl⟩), rfl, cs, cs', rfl, rfl, ha⟩
    rw [ha.nextIsKeyword_eq, hn]
  · obtain ⟨us', rfl, hus⟩ := ha.of_name (isQuote_of_isKeyword hk hkey)
    obtain ⟨a', rest', hbody', hrest⟩ := hb hbody (plain_some hp) hus
    refine ⟨some a', rest', clause_eq_ok_iff.mpr (.inr ⟨k, us', a', hkey, rfl, hbody', rfl⟩),
      hrest.map ?_ (texts_some a) (texts_some a')⟩
    exact congrArg some hrest.blank_eq

theorem steady_byList {failure : SyntaxError} (hi : Steady stop (Reader.run item)) :
    Steady stop (byList failure item) := by
  intro ts rest l h hp cs cs' ts' ha
  obtain ⟨k, us, hk, rfl, hl⟩ := byList_eq_ok_iff.mp h
  obtain ⟨us', rfl, hus⟩ := ha.of_name (isQuote_of_isKeyword (by decide +kernel) hk)
  obtain ⟨l', rest', hl', hrefill⟩ := hl.refill hi hp hus
  exact ⟨l', rest', byList_eq_ok_iff.mpr ⟨k, us', hk, rfl, hl'⟩, hrefill⟩

end Readers

/-! ### Queries and statements -/

theorem texts_tables (tables : Option (List (Aliased Token))) : texts tables = [] := by
  have hnil : ∀ l : List (Aliased Token), texts l = [] := by
    intro l
    induction l with
    | nil => rfl
    | cons a l ih => exact ih
  cases tables with
  | none => rfl
  | some l => exact (texts_some l).trans (hnil l)

theorem blank_tables (tables : Option (List (Aliased Token))) : blank tables = tables := by
  cases tables with
  | none => rfl
  | some l => exact congrArg some (List.map_id l)

theorem plain_select {q : Select} : Plain q ↔ Plain q.columns ∧ Plain q.tables ∧ Plain q.filter ∧
    Plain q.groupBy ∧ Plain q.having ∧ Plain q.orderBy ∧ Plain q.limit := by
  show (∀ n ∈ names q.columns ++ names q.tables ++ names q.filter ++ names q.groupBy ++
    names q.having ++ names q.orderBy ++ names q.limit, isQuote n = false) ↔ _
  simp only [List.forall_mem_append, and_assoc]
  exact Iff.rfl

theorem plain_tables {tables : Option (List (Aliased Token))} (h : Plain (tables.getD [])) :
    Plain tables := by
  cases tables with
  | none => exact h
  | some l =>
    intro n hn
    have hn : n ∈ names l := (List.append_nil (names l)) ▸ hn
    exact h n hn

theorem steady_select : Steady stop Select.read := by
  intro ts rest q h hp cs cs' ts' ha
  obtain ⟨ts1, ts2, ts3, ts4, ts5, ts6, tables, h1, h2, htables, h3, h4, h5, h6, h7⟩ :=
    Select.read_eq_ok_iff.mp h
  obtain ⟨hp1, hp2, hp3, hp4, hp5, hp6, hp7⟩ := plain_select.mp hp
  have hp2 : Plain tables := plain_tables (htables ▸ hp2)
  -- clause by clause: what is read (r), the same but for its texts (b), and the contents that it
  -- takes off both lists (e)
  obtain ⟨columns', us1, r1, b1, d1, d1', e1, e1', a1⟩ :=
    h1.refill (steady_aliased steady_expr) hp1 ha
  obtain ⟨tables', us2, r2, b2, d2, d2', e2, e2', a2⟩ := steady_clause (by decide +kernel)
    (steady_commaList (steady_aliased steady_token)) h2 hp2 a1
  obtain ⟨filter', us3, r3, b3, d3, d3', e3, e3', a3⟩ :=
    steady_clause (by decide +kernel) steady_expr h3 hp3 a2
  obtain ⟨groupBy', us4, r4, b4, d4, d4', e4, e4', a4⟩ :=
    steady_clause (by decide +kernel) (steady_byList steady_expr) h4 hp4 a3
  obtain ⟨having', us5, r5, b5, d5, d5', e5, e5', a5⟩ :=
    steady_clause (by decide +kernel) steady_expr h5 hp5 a4
  obtain ⟨orderBy', us6, r6, b6, d6, d6', e6, e6', a6⟩ :=
    steady_clause (by decide +kernel) (steady_byList steady_sortKey) h6 hp6 a5
  obtain ⟨limit', us7, r7, b7, d7, d7', e7, e7', a7⟩ :=
    steady_clause (by decide +kernel) steady_expr h7 hp7 a6
  obtain ⟨rest', rfl, hrest⟩ := a7.of_name (by decide)
  rw [blank_tables, blank_tables] at b2
  rw [texts_tables] at e2 e2'
  refine ⟨⟨columns', tables'.getD [], filter', groupBy', having', orderBy', limit'⟩, rest', ?_, ?_,
    d7, d7', ?_, ?_, hrest⟩
  · exact Select.read_eq_ok_iff.mpr
      ⟨us1, us2, us3, us4, us5, us6, tables', r1, r2, rfl, r3, r4, r5, r6, r7⟩
  · show (⟨blank columns', tables'.getD [], blank filter', blank groupBy', blank having',
      blank orderBy', blank limit'⟩ : Select) = _
    rw [b1, b2, b3, b4, b5, b6, b7, ← htables]
    rfl
  · show cs = texts q.columns ++ texts q.filter ++ texts q.groupBy ++ texts q.having ++
      texts q.orderBy ++ texts q.limit ++ d7
    simp only [e1, e2, e3, e4, e5, e6, e7, List.append_assoc, List.nil_append]
  · show cs' = texts columns' ++ texts filter' ++ texts groupBy' ++ texts having' ++
      texts orderBy' ++ texts limit' ++ d7'
    simp only [e1', e2', e3', e4', e5', e6', e7', List.append_assoc, List.nil_append]

theorem steady_statement : Steady stop Statement.read := by
  intro ts rest st h hp cs cs' ts' ha
  rcases Statement.read_eq_ok_iff.mp h with ⟨k, us, q, hk, rfl, hq, rfl⟩ |
    ⟨k1, k2, name, k3, k4, us, q, hs, h1, h2, h3, h4, rfl, hq, rfl⟩
  · obtain ⟨us', rfl, hus⟩ := ha.of_name (isQuote_of_isKeyword (by decide +kernel) hk)
    obtain ⟨q', rest', hq', hrest⟩ := steady_select hq hp hus
    refine ⟨.query q', rest', Statement.read_eq_ok_iff.mpr (.inl ?_),
      hrest.map (congrArg Statement.query hrest.blank_eq) rfl rfl⟩
    exact ⟨k, us', q', hk, rfl, hq', rfl⟩
  · obtain ⟨us1, rfl, ha1⟩ := ha.of_name (isQuote_of_isKeyword (by decide +kernel) h1)
    obtain ⟨us2, rfl, ha2⟩ := ha1.of_name (isQuote_of_isKeyword (by decide +kernel) h2)
    obtain ⟨us3, rfl, ha3⟩ := ha2.of_name (hp name List.mem_cons_self)
    obtain ⟨us4, rfl, ha4⟩ := ha3.of_name (isQuote_of_isKeyword (by decide +kernel) h3)
    obtain ⟨us', rfl, hus⟩ := ha4.of_name (isQuote_of_isKeyword (by decide +kernel) h4)
    have hpq : Plain q := fun n hn => hp n (List.mem_cons_of_mem name hn)
    obtain ⟨q', rest', hq', hrest⟩ := steady_select hq hpq hus
    refine ⟨.create name q', rest', Statement.read_eq_ok_iff.mpr (.inr ?_),
      hrest.map (congrArg (Statement.create name) hrest.blank_eq) rfl rfl⟩
    exact ⟨k1, k2, name, k3, k4, us', q', hs, h1, h2, h3, h4, rfl, hq', rfl⟩

end QueryTrace

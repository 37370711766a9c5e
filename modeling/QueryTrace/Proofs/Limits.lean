/-
The limits of a trace.

A limit can end a trace early, and it does nothing else: under limits a trace ends as it does
without them, or it reports that it has run into one of them.

* `Run.CutShort x y` — however far the two have come, `x` ends as `y` does unless a limit ends it;
* `Setting.Loosens` — the same store under limits that allow at least as much;
* **`cutShort_ofSelect`** — under looser limits a query ends the same way, or the tighter ones end
  it;
* **`outcome_under_limits`** — the same for the limits of a user against none, and for a bound on
  products against a greater one.

Design notes: the two runs look at the clock at different times and may be read different times, so
`CutShort` compares them from any progress of either.  Only the looser run has to be without a time
budget.
-/
import QueryTrace.Proofs.Refinement

namespace QueryTrace

/-! ### Runs that are cut short -/

namespace Run

variable {α β : Type} {s s' : Setting}

/-- Whatever the progress of the two runs, `x` ends as `y` does, or with the report of a limit. -/
def CutShort (x y : Run α) : Prop :=
  ∀ p p', (x p).1 = (y p').1 ∨ ∃ cause, (x p).1 = .error (.resource cause)

/-- What does not depend on the progress is cut short by nothing. -/
theorem cutShort_of_const {x : Run α} {r : Except Failure α} (h : ∀ p, (x p).1 = r) :
    x.CutShort x := by
  intro p p'
  exact .inl ((h p).trans (h p').symm)

theorem cutShort_pure (a : α) : (pure a : Run α).CutShort (pure a) :=
  cutShort_of_const fun _ => rfl

theorem cutShort_throw (e : Failure) : (throw e : Run α).CutShort (throw e) :=
  cutShort_of_const fun _ => rfl

theorem cutShort_modify (f : Progress → Progress) : (modify f : Run PUnit).CutShort (modify f) :=
  cutShort_of_const fun _ => rfl

theorem cutShort_ofExcept {ε : Type} (cause : ε → Failure) (x : Except ε α) :
    (ofExcept cause x).CutShort (ofExcept cause x) :=
  cutShort_of_const fun p => by rw [ofExcept_apply]

theorem cutShort_bind {x y : Run α} {f g : α → Run β} (hx : x.CutShort y)
    (hf : ∀ a, (f a).CutShort (g a)) : (x >>= f).CutShort (y >>= g) := by
  intro p p'
  rw [bind_apply, bind_apply]
  have hp := hx p p'
  rcases hxp : x p with ⟨out, q⟩
  rcases hyp : y p' with ⟨out', q'⟩
  rw [hxp, hyp] at hp
  rcases hp with hsame | ⟨cause, hcause⟩
  · obtain rfl : out = out' := hsame
    cases out with
    | ok a => exact hf a q q'
    | error e => exact .inl rfl
  -- a limit ends the whole sequence
  · obtain rfl : out = .error (.resource cause) := hcause
    exact .inr ⟨cause, rfl⟩

theorem cutShort_mapM {f g : α → Run β} (h : ∀ a, (f a).CutShort (g a)) (l : List α) :
    (l.mapM f).CutShort (l.mapM g) := by
  induction l with
  | nil => exact cutShort_pure []
  | cons a l ih =>
    rw [List.mapM_cons, List.mapM_cons]
    refine cutShort_bind (h a) fun b => ?_
    exact cutShort_bind ih fun bs => cutShort_pure (b :: bs)

/-- A look at the clock may end a run, but not one without a time budget. -/
theorem cutShort_checkTime (hb : s'.limits.timeBudget = none) :
    (checkTime s).CutShort (checkTime s') := by
  intro p p'
  have hfails : (checkTime s).FailsOnly fun e => ∃ cause, e = .resource cause :=
    failsOnly_checkTime fun budget _ => ⟨.outOfTime budget, rfl⟩
  rw [checkTime_unlimited hb]
  rcases hx : checkTime s p with ⟨out, q⟩
  cases out with
  | ok u => exact .inl rfl
  | error e =>
    obtain ⟨cause, rfl⟩ := hfails p e q hx
    exact .inr ⟨cause, rfl⟩

theorem cutShort_keepPace (hb : s'.limits.timeBudget = none) (row : Nat) :
    (keepPace s row).CutShort (keepPace s' row) := by
  unfold keepPace
  split
  · exact cutShort_checkTime hb
  · exact cutShort_pure ()

theorem cutShort_keepPaceOver (hb : s'.limits.timeBudget = none) (rows : Nat) :
    (keepPaceOver s rows).CutShort (keepPaceOver s' rows) := by
  unfold keepPaceOver
  induction List.range rows with
  | nil => exact cutShort_pure ()
  | cons i l ih => exact cutShort_bind (cutShort_keepPace hb i) fun _ => ih

end Run

/-! ### Looser limits -/

/-- The store of `s` under limits that allow at least as much: no time budget, and no bound on
products or a greater one. -/
structure Setting.Loosens (s' s : Setting) : Prop where
  store : s'.store = s.store
  timeBudget : s'.limits.timeBudget = none
  maxProductRows : ∀ m, s'.limits.maxProductRows = some m →
    ∃ n, s.limits.maxProductRows = some n ∧ n ≤ m

namespace Trace

open Run

variable {s s' : Setting} (h : s'.Loosens s)

include h

theorem cutShort_fetch (name : String) : (fetch s name).CutShort (fetch s' name) := by
  unfold fetch
  rw [h.store]
  refine cutShort_bind (cutShort_modify _) fun _ => ?_
  refine cutShort_bind (cutShort_ofExcept _ _) fun answer => ?_
  cases answer with
  | nil => exact cutShort_throw _
  | cons t more => exact cutShort_ofExcept _ _

theorem cutShort_load (entries : List (Aliased String)) :
    (load s entries).CutShort (load s' entries) := by
  refine cutShort_mapM (fun entry => ?_) entries
  refine cutShort_bind (cutShort_fetch h entry.item) fun t => ?_
  exact cutShort_bind (cutShort_checkTime h.timeBudget) fun _ => cutShort_pure _

/-- A product that is within a bound is within a greater one, and of the same size. -/
theorem productSize_loosened (ts : List Table) :
    productSize s.limits ts = productSize s'.limits ts ∨
      ∃ cause, productSize s.limits ts = .error cause := by
  unfold productSize
  cases ts.foldlM timesRows 1 with
  | error cause => exact .inr ⟨cause, rfl⟩
  | ok size =>
    rw [except_ok_bind, except_ok_bind]
    cases hm : s'.limits.maxProductRows with
    | none =>
      cases s.limits.maxProductRows with
      | none => exact .inl rfl
      | some n =>
        by_cases hn : n < size
        · exact .inr ⟨.productTooLarge size n, if_pos hn⟩
        · exact .inl (if_neg hn)
    | some m =>
      obtain ⟨n, hn, hle⟩ := h.maxProductRows m hm
      rw [hn]
      by_cases hlt : n < size
      · exact .inr ⟨.productTooLarge size n, if_pos hlt⟩
      · exact .inl ((if_neg hlt).trans (if_neg (by omega)).symm)

theorem cutShort_productSize (ts : List Table) :
    (ofExcept .resource (productSize s.limits ts)).CutShort
      (ofExcept .resource (productSize s'.limits ts)) := by
  intro p p'
  rw [ofExcept_apply, ofExcept_apply]
  rcases productSize_loosened h ts with hsame | ⟨cause, hcause⟩
  · rw [hsame]
    exact .inl rfl
  · rw [hcause]
    exact .inr ⟨cause, rfl⟩

theorem cutShort_expand (size before : Nat) (ts : List Table) :
    (expand s size before ts).CutShort (expand s' size before ts) := by
  induction ts generalizing before with
  | nil => exact cutShort_pure []
  | cons t ts ih =>
    refine cutShort_bind (cutShort_keepPaceOver h.timeBudget size) fun _ => ?_
    exact cutShort_bind (ih (runLength before t)) fun more => cutShort_pure _

theorem cutShort_join (ts : List Table) : (join s ts).CutShort (join s' ts) := by
  have hall : (joinAll s ts).CutShort (joinAll s' ts) := by
    refine cutShort_bind (cutShort_productSize h ts) fun size => ?_
    refine cutShort_bind (cutShort_expand h size size ts) fun expanded => ?_
    refine cutShort_bind (cutShort_keepPaceOver h.timeBudget size) fun _ => ?_
    exact cutShort_bind (cutShort_ofExcept _ _) fun joined => cutShort_pure _
  unfold join
  split
  · exact cutShort_pure _
  · exact cutShort_bind hall fun out => cutShort_pure _

theorem cutShort_filterStage (q : Select) (t : Table) :
    (filterStage s q t).CutShort (filterStage s' q t) := by
  unfold filterStage
  cases q.filter with
  | none => exact cutShort_pure _
  | some condition =>
    refine cutShort_bind (cutShort_mapM (fun r => ?_) _) fun labels => cutShort_pure _
    refine cutShort_bind (cutShort_keepPace h.timeBudget r.2) fun _ => ?_
    exact cutShort_bind (cutShort_ofExcept _ _) fun v => cutShort_pure _

theorem cutShort_groupStage (q : Select) (t : Table) :
    (groupStage s q t).CutShort (groupStage s' q t) := by
  unfold groupStage
  cases q.groupBy with
  | none => exact cutShort_pure _
  | some exprs =>
    refine cutShort_bind (cutShort_ofExcept _ _) fun keys => ?_
    exact cutShort_bind (cutShort_checkTime h.timeBudget) fun _ => cutShort_pure _

theorem cutShort_havingStage (q : Select) (groups : List Table) :
    (havingStage s q groups).CutShort (havingStage s' q groups) := by
  unfold havingStage
  cases q.having with
  | none => exact cutShort_pure _
  | some condition =>
    refine cutShort_bind (cutShort_mapM (fun g => ?_) _) fun judged => ?_
    · exact cutShort_bind (cutShort_ofExcept _ _) fun keep => cutShort_pure _
    · exact cutShort_bind (cutShort_checkTime h.timeBudget) fun _ => cutShort_pure _

/-- **A tighter limit ends a query, or it changes nothing.** -/
theorem cutShort_ofSelect (q : Select) : (ofSelect s q).CutShort (ofSelect s' q) := by
  by_cases hq : q.tables = []
  · rw [ofSelect_of_no_tables hq, ofSelect_of_no_tables hq]
    exact cutShort_pure []
  · rw [ofSelect_eq_stages s hq, ofSelect_eq_stages s' hq]
    refine cutShort_bind (cutShort_load h q.tables) fun inputs => ?_
    refine cutShort_bind (cutShort_join h inputs) fun joined => ?_
    refine cutShort_bind (cutShort_filterStage h q joined.1) fun filtered => ?_
    refine cutShort_bind (cutShort_groupStage h q filtered.1) fun grouped => ?_
    exact cutShort_bind (cutShort_havingStage h q grouped.1) fun chosen => cutShort_pure _

theorem cutShort_ofText (text : String) : (ofText s text).CutShort (ofText s' text) :=
  cutShort_bind (cutShort_ofExcept _ _) fun statement => cutShort_ofSelect h statement.select

end Trace

/-! ### The limits of a user -/

namespace Setting

/-- The store under a bound on products, if any, and without a time budget; the clock is another
one. -/
def bounded (s : Setting) (clock : Nat → Nat) (bound : Option Nat) : Setting :=
  { s with limits := { maxProductRows := bound, timeBudget := none }, clock }

theorem bounded_none_loosens (s : Setting) (clock : Nat → Nat) :
    (s.bounded clock none).Loosens s where
  store := rfl
  timeBudget := rfl
  maxProductRows := fun _ hm => nomatch hm

theorem bounded_loosens (s : Setting) (clock clock' : Nat → Nat) {n : Nat} {bound : Option Nat}
    (hn : ∀ m, bound = some m → n ≤ m) :
    (s.bounded clock' bound).Loosens (s.bounded clock (some n)) where
  store := rfl
  timeBudget := rfl
  maxProductRows := fun m hm => ⟨n, rfl, hn m hm⟩

end Setting

namespace Trace

/-- **Limits only ever abort a trace.**  Whatever the limits and the clock, a query ends as it does
without limits, or with the report of a limit; and without a time budget, an end that is no such
report is the end under every greater bound on products and without a bound.  The same holds for
statements in texts. -/
theorem outcome_under_limits (s : Setting) (clock clock' : Nat → Nat) :
    (∀ q, (ofSelect s q {}).1 = (ofSelect (s.bounded clock none) q {}).1 ∨
      ∃ cause, (ofSelect s q {}).1 = .error (.resource cause)) ∧
    (∀ text, (outcome s text).1 = (outcome (s.bounded clock none) text).1 ∨
      ∃ cause, (outcome s text).1 = .error (.resource cause)) ∧
    ∀ n bound, (∀ m, bound = some m → n ≤ m) →
      (∀ q, (∀ cause, (ofSelect (s.bounded clock (some n)) q {}).1 ≠ .error (.resource cause)) →
        (ofSelect (s.bounded clock' bound) q {}).1 =
          (ofSelect (s.bounded clock (some n)) q {}).1) ∧
      ∀ text, (∀ cause, (outcome (s.bounded clock (some n)) text).1 ≠ .error (.resource cause)) →
        (outcome (s.bounded clock' bound) text).1 =
          (outcome (s.bounded clock (some n)) text).1 := by
  have hfree := s.bounded_none_loosens clock
  refine ⟨fun q => cutShort_ofSelect hfree q {} {},
    fun text => cutShort_ofText hfree text {} {}, ?_⟩
  intro n bound hn
  have hbound := s.bounded_loosens clock clock' hn
  constructor
  · intro q hq
    rcases cutShort_ofSelect hbound q {} {} with hsame | ⟨cause, hcause⟩
    · exact hsame.symm
    · exact absurd hcause (hq cause)
  · intro text htext
    rcases cutShort_ofText hbound text {} {} with hsame | ⟨cause, hcause⟩
    · exact hsame.symm
    · exact absurd hcause (htext cause)

/-- The product of two tables with two rows each: a bound of four rows changes nothing, a bound of
three and a budget that is used up end the query. -/
theorem outcome_under_limits_selfJoin :
    ((∀ cause, (ofSelect (twoRows.bounded twoRows.clock (some 4)) selfJoin {}).1 ≠
        .error (.resource cause)) ∧
      (ofSelect (twoRows.bounded twoRows.clock none) selfJoin {}).1 =
        (ofSelect (twoRows.bounded twoRows.clock (some 4)) selfJoin {}).1) ∧
    (ofSelect (twoRows.bounded twoRows.clock (some 3)) selfJoin {}).1 =
      .error (.resource (.productTooLarge 4 3)) ∧
    (ofSelect { twoRows with limits := { timeBudget := some 0 }, clock := id } selfJoin {}).1 =
      .error (.resource (.outOfTime 0)) := by
  have hok : (ofSelect (twoRows.bounded twoRows.clock (some 4)) selfJoin {}).1.isOk = true := by
    decide +kernel
  have hne : ∀ cause, (ofSelect (twoRows.bounded twoRows.clock (some 4)) selfJoin {}).1 ≠
      .error (.resource cause) := by
    intro cause hcause
    rw [hcause] at hok
    cases hok
  obtain ⟨-, -, hbound⟩ := outcome_under_limits twoRows twoRows.clock twoRows.clock
  obtain ⟨hquery, -⟩ := hbound 4 none fun m hm => nomatch hm
  exact ⟨⟨hne, hquery selfJoin hne⟩, rfl, rfl⟩

end Trace

end QueryTrace

/-
The questions that a trace puts to the store.

A trace asks the store for whole tables, one question for each listed table in their order, and it
asks no more once a table cannot be had or the time is used up.

* `Run.Silent` — a part of a trace that asks nothing; of all stages only `load` is not silent;
* `stopsAt` and `attempted` — where loading stops, and the entries up to there;
* **`queries_load`** — the questions of `load`, and `queries_ofSelect`: there are no others;
* **`outcome_questions`** — the questions for a text, each of which is one statement.
-/
import QueryTrace.Proofs.Refinement
import QueryTrace.Proofs.TableNames

namespace QueryTrace

/-! ### Parts of a trace that ask nothing -/

namespace Run

variable {α β : Type} {s : Setting}

/-- Whatever the progress, the questions stay as they are. -/
def Silent (x : Run α) : Prop :=
  ∀ p, (x p).2.queries = p.queries

theorem silent_pure (a : α) : (pure a : Run α).Silent :=
  fun _ => rfl

theorem silent_ofExcept {ε : Type} (cause : ε → Failure) (x : Except ε α) :
    (ofExcept cause x).Silent := by
  intro p
  rw [ofExcept_apply]

/-- Behind a run only silent parts follow, so the questions are those of the run. -/
theorem queries_bind {x : Run α} {f : α → Run β} (hf : ∀ a, (f a).Silent) (p : Progress) :
    ((x >>= f) p).2.queries = (x p).2.queries := by
  rw [bind_apply]
  rcases x p with ⟨out, q⟩
  cases out with
  | ok a => exact hf a q
  | error e => rfl

theorem silent_bind {x : Run α} {f : α → Run β} (hx : x.Silent) (hf : ∀ a, (f a).Silent) :
    (x >>= f).Silent :=
  fun p => (queries_bind hf p).trans (hx p)

theorem silent_mapM {f : α → Run β} (hf : ∀ a, (f a).Silent) (l : List α) :
    (l.mapM f).Silent := by
  induction l with
  | nil => exact silent_pure _
  | cons a l ih =>
    rw [List.mapM_cons]
    exact silent_bind (hf a) fun _ => silent_bind ih fun _ => silent_pure _

/-- Is the time used up at the look of the given number? -/
def outOfTime (s : Setting) (look : Nat) : Bool :=
  s.limits.timeBudget.any fun budget => budget * 1000000 < s.clock look

theorem checkTime_apply (s : Setting) (p : Progress) :
    checkTime s p = (match s.limits.timeBudget with
      | some budget => if budget * 1000000 < s.clock p.looks then
          throw (.resource (.outOfTime budget)) else pure ()
      | none => pure () : Run Unit) ⟨p.queries, p.looks + 1⟩ := by
  unfold checkTime
  rw [bind_apply]
  show (set _ >>= _ : Run Unit) p = _
  rw [bind_apply]
  rfl

/-- A look at the clock is counted, and it fails if the time is used up. -/
theorem checkTime_cases (s : Setting) (p : Progress) :
    (outOfTime s p.looks = false ∧ checkTime s p = (.ok (), ⟨p.queries, p.looks + 1⟩)) ∨
      (outOfTime s p.looks = true ∧ ∃ e, checkTime s p = (.error e, ⟨p.queries, p.looks + 1⟩)) := by
  rw [checkTime_apply, outOfTime]
  cases s.limits.timeBudget with
  | none => exact .inl ⟨rfl, rfl⟩
  | some budget =>
    rw [Option.any_some]
    dsimp only
    -- the number of nanoseconds is not to be computed when the two sides are compared
    generalize budget * 1000000 = limit
    by_cases h : limit < s.clock p.looks
    · rw [if_pos h]
      exact .inr ⟨decide_eq_true h, _, rfl⟩
    · rw [if_neg h]
      exact .inl ⟨decide_eq_false h, rfl⟩

theorem silent_checkTime (s : Setting) : (checkTime s).Silent := by
  intro p
  rcases checkTime_cases s p with ⟨-, h⟩ | ⟨-, e, h⟩
  · rw [h]
  · rw [h]

theorem silent_keepPace (s : Setting) (row : Nat) : (keepPace s row).Silent := by
  unfold keepPace
  split
  · exact silent_checkTime s
  · exact silent_pure ()

theorem silent_keepPaceOver (s : Setting) (rows : Nat) : (keepPaceOver s rows).Silent := by
  unfold keepPaceOver
  induction List.range rows with
  | nil => exact silent_pure ()
  | cons i l ih => exact silent_bind (silent_keepPace s i) fun _ => ih

theorem fetch_apply (s : Setting) (name : String) (p : Progress) :
    fetch s name p = (Relational.stored s.store name,
      { p with queries := p.queries ++ ["SELECT * FROM " ++ name ++ ";"] }) := by
  rw [Trace.stored_eq, fetch, bind_apply]
  show (ofExcept _ _ >>= _) { p with queries := p.queries ++ [readTable name] } = _
  rw [bind_apply, ofExcept_apply]
  cases s.store (readTable name) with
  | error message => rfl
  | ok answer =>
    cases answer with
    | nil => rfl
    | cons t more =>
      show ofExcept _ _ _ = _
      rw [ofExcept_apply]
      rfl

end Run

namespace Trace

variable {s : Setting}

theorem silent_expand (s : Setting) (size before : Nat) (ts : List Table) :
    (expand s size before ts).Silent := by
  induction ts generalizing before with
  | nil => exact Run.silent_pure _
  | cons t ts ih =>
    refine Run.silent_bind (Run.silent_keepPaceOver s size) fun _ => ?_
    exact Run.silent_bind (ih (runLength before t)) fun _ => Run.silent_pure _

theorem silent_join (s : Setting) (ts : List Table) : (join s ts).Silent := by
  have hall : (joinAll s ts).Silent := by
    refine Run.silent_bind (Run.silent_ofExcept _ _) fun size => ?_
    refine Run.silent_bind (silent_expand s size size ts) fun _ => ?_
    refine Run.silent_bind (Run.silent_keepPaceOver s size) fun _ => ?_
    exact Run.silent_bind (Run.silent_ofExcept _ _) fun _ => Run.silent_pure _
  unfold join
  split
  · exact Run.silent_pure _
  · exact Run.silent_bind hall fun _ => Run.silent_pure _

theorem silent_filterStage (s : Setting) (q : Select) (t : Table) :
    (filterStage s q t).Silent := by
  unfold filterStage
  cases q.filter with
  | none => exact Run.silent_pure _
  | some condition =>
    refine Run.silent_bind (Run.silent_mapM (fun r => ?_) _) fun _ => Run.silent_pure _
    refine Run.silent_bind (Run.silent_keepPace s r.2) fun _ => ?_
    exact Run.silent_bind (Run.silent_ofExcept _ _) fun _ => Run.silent_pure _

theorem silent_groupStage (s : Setting) (q : Select) (t : Table) : (groupStage s q t).Silent := by
  unfold groupStage
  cases q.groupBy with
  | none => exact Run.silent_pure _
  | some exprs =>
    refine Run.silent_bind (Run.silent_ofExcept _ _) fun _ => ?_
    exact Run.silent_bind (Run.silent_checkTime s) fun _ => Run.silent_pure _

theorem silent_havingStage (s : Setting) (q : Select) (groups : List Table) :
    (havingStage s q groups).Silent := by
  unfold havingStage
  cases q.having with
  | none => exact Run.silent_pure _
  | some condition =>
    refine Run.silent_bind (Run.silent_mapM (fun g => ?_) _) fun _ => ?_
    · exact Run.silent_bind (Run.silent_ofExcept _ _) fun _ => Run.silent_pure _
    · exact Run.silent_bind (Run.silent_checkTime s) fun _ => Run.silent_pure _

/-! ### Loading -/

/-- Does loading stop at the entry of the given number?  It does if the store does not give the
table, and if the time is used up behind it. -/
def stopsAt (s : Setting) (entry : Aliased String) (number : Nat) : Bool :=
  !(Relational.stored s.store entry.item).isOk || Run.outOfTime s number

/-- The entries up to the first at which loading stops, with that one, when as many looks at the
clock have been made before. -/
def attempted (s : Setting) (looks : Nat) (entries : List (Aliased String)) :
    List (Aliased String) :=
  entries.take ((entries.zipIdx looks).findIdx (fun (entry, number) => stopsAt s entry number) + 1)

theorem attempted_cons (s : Setting) (looks : Nat) (entry : Aliased String)
    (entries : List (Aliased String)) :
    attempted s looks (entry :: entries) =
      entry :: if stopsAt s entry looks then [] else attempted s (looks + 1) entries := by
  unfold attempted
  rw [List.zipIdx_cons, List.findIdx_cons, List.take_succ_cons]
  dsimp only
  cases stopsAt s entry looks with
  | true => rfl
  | false => rfl

/-- One entry is asked for, and then the clock is looked at unless the store has refused. -/
theorem load_step (s : Setting) (entry : Aliased String) (entries : List (Aliased String))
    (p : Progress) :
    (load s (entry :: entries) p).2.queries =
      if stopsAt s entry p.looks then p.queries ++ ["SELECT * FROM " ++ entry.item ++ ";"]
      else (load s entries ⟨p.queries ++ ["SELECT * FROM " ++ entry.item ++ ";"],
        p.looks + 1⟩).2.queries := by
  unfold load stopsAt
  rw [List.mapM_cons, Run.bind_apply, Run.bind_apply, Run.fetch_apply]
  cases Relational.stored s.store entry.item with
  | error e => rfl
  | ok t =>
    dsimp only
    rw [Run.bind_apply]
    rcases Run.checkTime_cases s ⟨p.queries ++ ["SELECT * FROM " ++ entry.item ++ ";"], p.looks⟩
      with ⟨hout, hlook⟩ | ⟨hout, e, hlook⟩
    · rw [hlook, hout]
      exact Run.queries_bind (fun _ => Run.silent_pure _) _
    · rw [hlook, hout]
      rfl

theorem queries_load (s : Setting) (entries : List (Aliased String)) (p : Progress) :
    (load s entries p).2.queries =
      p.queries ++ (attempted s p.looks entries).map fun entry =>
        "SELECT * FROM " ++ entry.item ++ ";" := by
  induction entries generalizing p with
  | nil => exact (List.append_nil p.queries).symm
  | cons entry entries ih =>
    rw [load_step, attempted_cons, ih]
    by_cases h : stopsAt s entry p.looks = true
    · rw [if_pos h, if_pos h]
      rfl
    · rw [if_neg h, if_neg h]
      simp

/-- A trace asks for its tables, and for nothing else. -/
theorem queries_ofSelect (s : Setting) (q : Select) (p : Progress) :
    (ofSelect s q p).2.queries = (load s q.tables p).2.queries := by
  by_cases hq : q.tables = []
  · rw [ofSelect_of_no_tables hq, hq]
    rfl
  · rw [ofSelect_eq_stages s hq]
    refine Run.queries_bind (fun inputs => ?_) p
    refine Run.silent_bind (silent_join s inputs) fun joined => ?_
    refine Run.silent_bind (silent_filterStage s q joined.1) fun filtered => ?_
    refine Run.silent_bind (silent_groupStage s q filtered.1) fun grouped => ?_
    exact Run.silent_bind (silent_havingStage s q grouped.1) fun _ => Run.silent_pure _

theorem mem_of_mem_attempted {looks : Nat} {entries : List (Aliased String)}
    {entry : Aliased String} (h : entry ∈ attempted s looks entries) : entry ∈ entries :=
  List.mem_of_mem_take h

/-- **The questions of a trace.**  They are those for the listed tables up to the first at which
loading stops, and each of them is one statement that reads a whole table. -/
theorem outcome_questions (s : Setting) (text : String) :
    (outcome s text).2 = (match Statement.parse text with
      | .ok st => (attempted s 0 st.select.tables).map fun entry =>
          "SELECT * FROM " ++ entry.item ++ ";"
      | .error _ => []) ∧
    ∀ question ∈ (outcome s text).2,
      ∃ rest, Script.statements question = ["SELECT * FROM " ++ rest] := by
  have hquestions : (outcome s text).2 = (match Statement.parse text with
      | .ok st => (attempted s 0 st.select.tables).map fun entry =>
          "SELECT * FROM " ++ entry.item ++ ";"
      | .error _ => []) := by
    show (ofText s text {}).2.queries = _
    rw [ofText, Run.bind_apply, Run.ofExcept_apply]
    cases Statement.parse text with
    | error e => rfl
    | ok st =>
      show (ofSelect s st.select {}).2.queries = _
      rw [queries_ofSelect, queries_load]
      rfl
  refine ⟨hquestions, fun question hq => ?_⟩
  rw [hquestions] at hq
  cases hp : Statement.parse text with
  | error e =>
    rw [hp] at hq
    cases hq
  | ok st =>
    rw [hp] at hq
    obtain ⟨entry, he, rfl⟩ := List.mem_map.mp hq
    exact statements_readTable (tableName_of_parse hp entry (mem_of_mem_attempted he))

/-- The setting of a store with a single table. -/
def singleTable : Setting where
  store question := if question = "SELECT * FROM t;" then .ok [⟨["x"], []⟩] else .error "no table"

theorem outcome_singleTable :
    ((outcome singleTable "SELECT 'a; b' FROM t, u AS v, w").2 =
        ["SELECT * FROM t;", "SELECT * FROM u;"] ∧
      ∃ rest, Script.statements "SELECT * FROM u;" = ["SELECT * FROM " ++ rest]) ∧
    (outcome singleTable "SELECT a FROM ';'").2 = ["SELECT * FROM ';"] ∧
      ∃ rest, Script.statements "SELECT * FROM ';" = ["SELECT * FROM " ++ rest] := by
  obtain ⟨hstop, hone⟩ := outcome_questions singleTable "SELECT 'a; b' FROM t, u AS v, w"
  obtain ⟨hquote, hone'⟩ := outcome_questions singleTable "SELECT a FROM ';'"
  have hstop := hstop.trans (b := _) (c := ["SELECT * FROM t;", "SELECT * FROM u;"])
    (by decide +kernel)
  have hquote := hquote.trans (b := _) (c := ["SELECT * FROM ';"]) (by decide +kernel)
  refine ⟨⟨hstop, hone _ ?_⟩, hquote, hone' _ ?_⟩
  · rw [hstop]
    simp
  · rw [hquote]
    simp

end Trace

end QueryTrace

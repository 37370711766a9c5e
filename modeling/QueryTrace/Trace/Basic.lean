/-
Traces of queries.

A trace re-derives the tables that a query goes through: the tables as they are stored, their
product, the rows that the filter keeps, the groups, the groups that are kept.  Each stage takes
the table or tables of the stage before and adds its own steps.

* `Trace.ofSelect` is the trace of a query, and `Trace.ofText` that of the statement in a text;
* `ofSelect_of_no_tables` — a query that reads no table has no steps;
* `filterStage`, `groupStage` and `havingStage` are the stages of the three clauses, and
  `ofSelect_eq_stages` — a trace of a query with tables is its stages one behind the other.

Design notes: a trace shows what the result is made from, and never the result columns, the order
or the bound of the query.  Those are left to the store.  A clause that is absent is a stage that
passes its tables on and shows nothing, so all traces are the same sequence of stages.
-/
import QueryTrace.Statement.Parser
import QueryTrace.Trace.Partition
import QueryTrace.Trace.Product

namespace QueryTrace.Trace

/-! ### Stages -/

/-- The label of what has been judged. -/
def verdict (keep : Bool) : Label :=
  if keep then .kept else .rejected

/-- The indices of the rows that are labelled as kept. -/
def keptIndices (labels : List Label) : List Nat :=
  labels.zipIdx.filterMap fun (label, i) => if label = .kept then some i else none

/-- The rows on which a condition is true. -/
def filterRows (s : Setting) (aliases : List (Aliased Expr)) (condition : Expr) (t : Table) :
    Run (Table × List Step) := do
  let scope : Scope := { columns := t.columns, aliases }
  let labels ← t.rows.zipIdx.mapM fun (row, i) => do
    Run.keepPace s i
    let v ← Run.ofExcept .evaluation (scope.evaluate condition row)
    return verdict v.truthy
  let kept := t.selectRows (keptIndices labels)
  return (kept, [⟨.filterMarked, [.withRowLabels t labels]⟩, ⟨.filtered, [.plain kept]⟩])

/-- The groups of a table. -/
def groupRows (s : Setting) (aliases : List (Aliased Expr)) (exprs : List Expr) (t : Table) :
    Run (List Table × List Step) := do
  let keys ← Run.ofExcept .evaluation (rowKeys aliases exprs t)
  let groups := groupsOf keys
  let ids := groups.map (·.key)
  let labels := keys.map fun key => Label.group (ids.idxOf key)
  let tables := groups.map fun g => t.selectRows g.members
  let marked := tables.zipIdx.map fun (g, id) => Annotated.withLabel g (.group id)
  Run.checkTime s
  return (tables, [⟨.groupMarked, [.withRowLabels t labels]⟩, ⟨.grouped, marked⟩])

/-- The row that speaks for a group: the last one, or a row of nulls if there is none. -/
def representative (t : Table) : Row :=
  t.rows.getLast?.getD (List.replicate t.columns.length .null)

/-- Is a condition true of a group? -/
def judgeGroup (aliases : List (Aliased Expr)) (condition : Expr) (t : Table) :
    Except EvalError Bool := do
  let scope : Scope := { columns := t.columns, aliases, group := some t.rows }
  let v ← scope.evaluate condition (representative t)
  return v.truthy

/-- The groups of which a condition is true. -/
def filterGroups (s : Setting) (aliases : List (Aliased Expr)) (condition : Expr)
    (groups : List Table) : Run (List Table × List Step) := do
  let judged ← groups.mapM fun g => do
    let keep ← Run.ofExcept .evaluation (judgeGroup aliases condition g)
    return (g, keep)
  Run.checkTime s
  return ((judged.filter (·.2)).map (·.1),
    [⟨.havingMarked, judged.map fun (g, keep) => .withLabel g (verdict keep)⟩])

/-! ### The whole trace -/

/-- The steps of a query. -/
def ofSelect (s : Setting) (q : Select) : Run (List Step) := do
  if q.tables.isEmpty then return []
  let inputs ← load s q.tables
  let (joined, joinSteps) ← join s inputs
  let (filtered, filterSteps) ← match q.filter with
    | some condition => filterRows s q.columns condition joined
    | none => pure (joined, [])
  let (groups, groupSteps) ← match q.groupBy with
    | some exprs => groupRows s q.columns exprs filtered
    | none => pure ([filtered], [])
  let (result, havingSteps) ← match q.having with
    | some condition => filterGroups s q.columns condition groups
    | none => pure (groups, [])
  return joinSteps ++ filterSteps ++ groupSteps ++ havingSteps ++
    [⟨.result, result.map .plain⟩]

theorem ofSelect_of_no_tables {s : Setting} {q : Select} (h : q.tables = []) :
    ofSelect s q = pure [] := by
  simp [ofSelect, h]

/-! ### The trace as a sequence of stages -/

/-- The filter of a query, on its joined table. -/
def filterStage (s : Setting) (q : Select) (t : Table) : Run (Table × List Step) :=
  match q.filter with
  | some condition => filterRows s q.columns condition t
  | none => pure (t, [])

/-- The grouping of a query, on its filtered table. -/
def groupStage (s : Setting) (q : Select) (t : Table) : Run (List Table × List Step) :=
  match q.groupBy with
  | some exprs => groupRows s q.columns exprs t
  | none => pure ([t], [])

/-- The choice of groups of a query. -/
def havingStage (s : Setting) (q : Select) (groups : List Table) : Run (List Table × List Step) :=
  match q.having with
  | some condition => filterGroups s q.columns condition groups
  | none => pure (groups, [])

theorem ofSelect_eq_stages (s : Setting) {q : Select} (hq : q.tables ≠ []) :
    ofSelect s q = (do
      let inputs ← load s q.tables
      let joined ← join s inputs
      let filtered ← filterStage s q joined.1
      let grouped ← groupStage s q filtered.1
      let chosen ← havingStage s q grouped.1
      return joined.2 ++ filtered.2 ++ grouped.2 ++ chosen.2 ++
        [⟨.result, chosen.1.map .plain⟩]) := by
  unfold ofSelect filterStage groupStage havingStage
  rw [if_neg (by simpa using hq)]
  cases q.filter <;> cases q.groupBy <;> cases q.having <;> rfl

/-! ### The trace of a text -/

/-- The steps of the statement in a text. -/
def ofText (s : Setting) (text : String) : Run (List Step) := do
  let statement ← Run.ofExcept .malformed (Statement.parse text)
  ofSelect s statement.select

/-- The outcome of a trace, and the questions that were put to the store. -/
def outcome (s : Setting) (text : String) : Except Failure (List Step) × List String :=
  let (result, progress) := (ofText s text).run.run {}
  (result, progress.queries)

end QueryTrace.Trace

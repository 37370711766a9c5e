/-
Remarks about how a statement is traced.

Each remark has a condition on the statement alone (`Remark.applies`); a statement gets the
remarks that apply to it, in a fixed order.

* `mem_remarks` — a statement gets exactly the remarks that apply to it.
-/
import QueryTrace.Statement.Basic

namespace QueryTrace

/-- How much a remark matters. -/
inductive Severity where
  | info
  | warning
  deriving DecidableEq, Repr

/-- What can be said of a statement before it is traced. -/
inductive Remark where
  /-- Only the query of a creation is traced. -/
  | onlyQueryTraced (table : String)
  /-- The statement reads no table. -/
  | nothingToTrace
  /-- The statement joins several tables without any condition on the join. -/
  | fullProduct (tables : Nat)
  /-- There is a condition on groups, and one group. -/
  | oneGroup
  /-- The condition on rows has an aggregate, and rows have no group. -/
  | aggregateInFilter
  /-- An aggregate is in the result only, which is not traced. -/
  | aggregateNotTraced
  /-- Order and bound of the result are not traced. -/
  | orderNotTraced
  deriving DecidableEq, Repr

namespace Remark

/-- How much the remark matters. -/
def severity : Remark → Severity
  | fullProduct _ => .warning
  | aggregateInFilter => .warning
  | _ => .info

/-- The wording of the remark. -/
def message : Remark → String
  | onlyQueryTraced table =>
    "Only the SELECT feeding " ++ table ++ " is simulated; the store creates the table."
  | nothingToTrace => "No FROM clause: nothing to simulate."
  | fullProduct n => "FROM lists " ++ toString n ++ " tables: the join is a full cartesian product."
  | oneGroup => "HAVING without GROUP BY treats the whole table as one group."
  | aggregateInFilter => "WHERE uses an aggregate, which fails outside a grouped context."
  | aggregateNotTraced => "Aggregates without GROUP BY are computed by the store only."
  | orderNotTraced => "ORDER BY and LIMIT are applied by the store, not shown as steps."

/-- What could be done about it. -/
def hint : Remark → Option String
  | fullProduct _ => some "Narrow the product early with a WHERE clause."
  | aggregateInFilter => some "Move the aggregate condition to HAVING."
  | _ => none

/-- Is the remark true of the statement? -/
def applies (statement : Statement) (remark : Remark) : Bool :=
  let s := statement.select
  match remark with
  | onlyQueryTraced table => statement == .create table s
  | nothingToTrace => s.tables.isEmpty
  | fullProduct n => s.tables.length == n && 2 ≤ n
  | oneGroup => s.having.isSome && s.groupBy.isNone
  | aggregateInFilter => s.filter.any Expr.hasAggregate
  | aggregateNotTraced =>
    s.columns.any (·.item.hasAggregate) && s.groupBy.isNone && s.having.isNone
  | orderNotTraced => s.orderBy.isSome || s.limit.isSome

/-- The remarks that could be made about a statement, in the order in which they are made. -/
def candidates (statement : Statement) : List Remark :=
  (match statement with
    | .create table _ => [onlyQueryTraced table]
    | .query _ => []) ++
  [nothingToTrace, fullProduct statement.select.tables.length, oneGroup, aggregateInFilter,
   aggregateNotTraced, orderNotTraced]

end Remark

/-- The remarks about a statement, in order. -/
def Statement.remarks (statement : Statement) : List Remark :=
  (Remark.candidates statement).filter (Remark.applies statement)

theorem mem_remarks {statement : Statement} {remark : Remark} :
    remark ∈ statement.remarks ↔ Remark.applies statement remark = true := by
  simp only [Statement.remarks, List.mem_filter, and_iff_right_iff_imp]
  intro h
  cases remark <;> simp only [Remark.applies, Remark.candidates] at * <;> cases statement <;>
    simp_all [Statement.select]

end QueryTrace

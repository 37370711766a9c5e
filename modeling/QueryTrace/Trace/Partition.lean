/-
Rows in groups.

Rows are in one group when the texts of their key values, put one behind the other, are equal.
Groups come in the order of their first rows.

* `partition` gives the groups of a table;
* `mem_members` — the rows of a group are those with its key.
-/
import QueryTrace.Evaluation
import QueryTrace.Table.Annotated

namespace QueryTrace.Trace

/-- What stands between the values of a key. -/
def keySeparator : String := "-------"

/-- The key of a row. -/
def rowKey (scope : Scope) (exprs : List Expr) (row : Row) : Except EvalError String := do
  let values ← exprs.mapM fun e => scope.evaluate e row
  return keySeparator.intercalate (values.map Value.display)

/-- The keys of all rows. -/
def rowKeys (aliases : List (Aliased Expr)) (exprs : List Expr) (t : Table) :
    Except EvalError (List String) :=
  t.rows.mapM (rowKey { columns := t.columns, aliases } exprs)

/-- The indices at which a key stands. -/
def membersOf (keys : List String) (key : String) : List Nat :=
  keys.zipIdx.filterMap fun (k, i) => if k = key then some i else none

/-- One group for each key, in the order in which the keys come first. -/
def groupsOf (keys : List String) : List RowGroup :=
  keys.eraseDups.map fun key => ⟨key, membersOf keys key⟩

theorem mem_members {keys : List String} {key : String} {i : Nat} :
    i ∈ membersOf keys key ↔ keys[i]? = some key := by
  simp only [membersOf, List.mem_filterMap, Prod.exists, List.mem_zipIdx_iff_getElem?,
    Option.ite_none_right_eq_some, Option.some.injEq]
  constructor
  · rintro ⟨k, j, hk, rfl, rfl⟩
    exact hk
  · exact fun h => ⟨key, i, h, rfl, rfl⟩

/-- The groups of a table by the values of some expressions. -/
def partition (aliases : List (Aliased Expr)) (exprs : List Expr) (t : Table) :
    Except EvalError (List RowGroup) :=
  (rowKeys aliases exprs t).map groupsOf

end QueryTrace.Trace

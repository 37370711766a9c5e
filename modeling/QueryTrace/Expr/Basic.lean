/-
Expressions of the query language.

* `BinOp.byLooseness` lists the twelve operators from the one that binds most loosely to the one
  that binds most tightly, and `BinOp.mem_byLooseness` says that none is missing;
* `Expr.ofChain` is the tree of a chain `e₀ op₁ e₁ op₂ e₂ …`: the root is the first of the
  loosest operators in the chain, so equal operators group to the right;
* `splitAtOp_eq_some` — where a chain is split.

Design notes: a chain is its first operand and a list of operators with the operand behind each,
so no chain has operators and operands that fail to alternate.  `Expr.assemble` takes the two
lists apart and refuses those that do not fit.
-/
import QueryTrace.Token

namespace QueryTrace

/-- The operators between two expressions. -/
inductive BinOp where
  | or | and | ne | eq | gt | ge | lt | le | add | sub | mul | div
  deriving DecidableEq, Repr

namespace BinOp

/-- The operators, the one that binds most loosely first. -/
def byLooseness : List BinOp :=
  [or, and, ne, eq, gt, ge, lt, le, add, sub, mul, div]

theorem mem_byLooseness (op : BinOp) : op ∈ byLooseness := by
  cases op <;> decide

/-- The operator as it is written. -/
def symbol : BinOp → String
  | or => "OR"
  | and => "AND"
  | ne => "!="
  | eq => "="
  | gt => ">"
  | ge => ">="
  | lt => "<"
  | le => "<="
  | add => "+"
  | sub => "-"
  | mul => "*"
  | div => "/"

end BinOp

/-- Expressions over the columns of a table. -/
inductive Expr where
  /-- A number, as it was written. -/
  | number (raw : String)
  /-- A text. -/
  | text (content : String)
  /-- A column or alias. -/
  | column (name : String)
  /-- A column of a named table. -/
  | qualified (table column : String)
  /-- A function of the rows of a group. -/
  | aggregate (function : String) (argument : Expr)
  | binary (op : BinOp) (left right : Expr)
  deriving DecidableEq, Repr

namespace Expr

/-- Does an aggregate occur in the expression? -/
def hasAggregate : Expr → Bool
  | aggregate _ _ => true
  | binary _ l r => l.hasAggregate || r.hasAggregate
  | _ => false

/-! ### From chains to trees -/

/-- A chain behind its first operand: operators, each with the operand that follows it. -/
abbrev Tail := List (BinOp × Expr)

/-- Splits a chain at the first `op`: what comes before it, the operand behind it, and the rest. -/
def splitAtOp (op : BinOp) : Tail → Option (Tail × Expr × Tail)
  | [] => none
  | (o, e) :: rest =>
    if o = op then some ([], e, rest)
    else (splitAtOp op rest).map fun (before, x, after) => ((o, e) :: before, x, after)

/-- A split puts the chain back together, and no `op` comes before the one it splits at. -/
theorem splitAtOp_eq_some {op : BinOp} {tail before after : Tail} {x : Expr}
    (h : splitAtOp op tail = some (before, x, after)) :
    tail = before ++ (op, x) :: after ∧ ∀ p ∈ before, p.1 ≠ op := by
  induction tail generalizing before with
  | nil => simp [splitAtOp] at h
  | cons p rest ih =>
    obtain ⟨o, e⟩ := p
    rw [splitAtOp] at h
    split at h
    · next ho =>
      simp only [Option.some.injEq, Prod.mk.injEq] at h
      obtain ⟨rfl, rfl, rfl⟩ := h
      simp [ho]
    · next ho =>
      obtain ⟨⟨b, y, a⟩, hb, he⟩ := Option.map_eq_some_iff.mp h
      simp only [Prod.mk.injEq] at he
      obtain ⟨rfl, rfl, rfl⟩ := he
      obtain ⟨rfl, hne⟩ := ih hb
      refine ⟨rfl, fun p hp => ?_⟩
      rcases List.mem_cons.mp hp with rfl | hp
      · exact ho
      · exact hne p hp

/-- Splits a chain at the first of its loosest operators. -/
def splitLoosest (tail : Tail) : Option (BinOp × Tail × Expr × Tail) :=
  BinOp.byLooseness.findSome? fun op => (splitAtOp op tail).map (op, ·)

theorem splitLoosest_length {op : BinOp} {tail before after : Tail} {x : Expr}
    (h : splitLoosest tail = some (op, before, x, after)) :
    before.length < tail.length ∧ after.length < tail.length := by
  obtain ⟨o, -, ho⟩ := List.exists_of_findSome?_eq_some h
  obtain ⟨⟨b, y, a⟩, hb, he⟩ := Option.map_eq_some_iff.mp ho
  simp only [Prod.mk.injEq] at he
  obtain ⟨rfl, rfl, rfl, rfl⟩ := he
  rw [(splitAtOp_eq_some hb).1]
  simp only [List.length_append, List.length_cons]
  omega

/-- The tree of a chain: its root is the first of the loosest operators. -/
def ofChain (head : Expr) (tail : Tail) : Expr :=
  match _h : splitLoosest tail with
  | none => head
  | some (op, before, x, after) => .binary op (ofChain head before) (ofChain x after)
termination_by tail.length
decreasing_by
  · exact (splitLoosest_length _h).1
  · exact (splitLoosest_length _h).2

theorem ofChain_nil (head : Expr) : ofChain head [] = head := by
  rw [ofChain]
  rfl

theorem ofChain_eq {op : BinOp} {head x : Expr} {tail before after : Tail}
    (h : splitLoosest tail = some (op, before, x, after)) :
    ofChain head tail = .binary op (ofChain head before) (ofChain x after) := by
  rw [ofChain]
  split
  · next h' => simp [h] at h'
  · next h' =>
    rw [h] at h'
    cases h'
    rfl

/-- The tree of operands and the operators between them, if the two lists fit. -/
def assemble (operands : List Expr) (ops : List BinOp) : Option Expr :=
  match operands with
  | [] => none
  | head :: rest => if rest.length = ops.length then some (ofChain head (ops.zip rest)) else none

end Expr

end QueryTrace

/-
The texts and the names in what a reader returns.

Of the tokens that a reader takes, some become texts, some become names, and the others only decide
how the tree is built.

* `texts` — the texts of a tree, in the order in which they stand in the input;
* `names` — its columns, tables, functions and aliases, and the name of a created table;
* `blank` — the same tree with all its texts emptied, so that two trees with equal `blank` differ in
  their texts at most;
* **`texts_ofChain`**, **`names_ofChain`**, **`blank_ofChain`** — which operand of a chain ends up
  where in its tree does not depend on texts or names.

Design notes: expressions, lists, optional clauses and whole statements are all returned by readers,
so the three functions are those of a class.
-/
import QueryTrace.Proofs.Parsed
import QueryTrace.Statement.Basic

namespace QueryTrace

/-- Things with texts and names in them. -/
class Literals (α : Type) where
  texts : α → List String
  names : α → List Token
  blank : α → α
  length_texts_blank : ∀ a, (texts (blank a)).length = (texts a).length

export Literals (texts names blank length_texts_blank)

/-- Is no name a quote? -/
def Plain {α : Type} [Literals α] (a : α) : Prop :=
  ∀ n ∈ names a, Token.isQuote n = false

section Lists

variable {α : Type} [Literals α]

instance (a : α) : Decidable (Plain a) :=
  inferInstanceAs (Decidable (∀ n ∈ names a, Token.isQuote n = false))

theorem length_texts_eq {a b : α} (h : blank b = blank a) :
    (texts b).length = (texts a).length := by
  rw [← length_texts_blank b, h, length_texts_blank]

instance : Literals (List α) where
  texts l := l.flatMap texts
  names l := l.flatMap names
  blank l := l.map blank
  length_texts_blank l := by
    induction l with
    | nil => rfl
    | cons a l ih => simp only [List.map_cons, List.flatMap_cons, List.length_append, ih,
        length_texts_blank]

theorem blank_cons (a : α) (l : List α) : blank (a :: l) = blank a :: blank l := rfl

theorem plain_cons {a : α} {l : List α} : Plain (a :: l) ↔ Plain a ∧ Plain l :=
  List.forall_mem_append

instance : Literals (Option α) where
  texts o := texts o.toList
  names o := names o.toList
  blank o := o.map blank
  length_texts_blank o := by
    cases o with
    | none => rfl
    | some a => exact length_texts_blank [a]

end Lists

/-! ### Expressions -/

/-- A name by itself. -/
instance : Literals Token where
  texts _ := []
  names t := [t]
  blank t := t
  length_texts_blank _ := rfl

namespace Expr

/-- The texts in the expression, from left to right. -/
def texts : Expr → List String
  | text content => [content]
  | aggregate _ argument => argument.texts
  | binary _ l r => l.texts ++ r.texts
  | _ => []

/-- The names in the expression. -/
def names : Expr → List Token
  | column name => [name]
  | qualified table name => [table, name]
  | aggregate function argument => function :: argument.names
  | binary _ l r => l.names ++ r.names
  | _ => []

/-- The expression with its texts emptied. -/
def blank : Expr → Expr
  | text _ => text ""
  | aggregate function argument => aggregate function argument.blank
  | binary op l r => binary op l.blank r.blank
  | e => e

instance : Literals Expr where
  texts := texts
  names := names
  blank := blank
  length_texts_blank e := by
    induction e with
    | aggregate f a ih => exact ih
    | binary op l r ihl ihr =>
      show (l.blank.texts ++ r.blank.texts).length = (l.texts ++ r.texts).length
      rw [List.length_append, List.length_append, ihl, ihr]
    | _ => rfl

instance : Literals (BinOp × Expr) where
  texts x := x.2.texts
  names x := x.2.names
  blank x := (x.1, x.2.blank)
  length_texts_blank x := length_texts_blank x.2

/-! ### Chains -/

theorem texts_ofChain (head : Expr) (tail : Tail) :
    (ofChain head tail).texts = head.texts ++ Literals.texts tail :=
  ofChain_append (fun _ => []) (fun _ _ _ => rfl) head tail

theorem names_ofChain (head : Expr) (tail : Tail) :
    (ofChain head tail).names = head.names ++ Literals.names tail :=
  ofChain_append (fun _ => []) (fun _ _ _ => rfl) head tail

theorem blank_ofChain (head : Expr) (tail : Tail) :
    (ofChain head tail).blank = ofChain head.blank (Literals.blank tail) :=
  ofChain_map (fun _ _ _ => rfl) head tail

/-! ### Phrases -/

/-- A phrase has what its expressions have. -/
instance : Literals Phrase where
  texts
    | .operand e | .expr e => e.texts
    | .chain head tail => head.texts ++ Literals.texts tail
  names
    | .operand e | .expr e => e.names
    | .chain head tail => head.names ++ Literals.names tail
  blank
    | .operand e => .operand e.blank
    | .chain head tail => .chain head.blank (Literals.blank tail)
    | .expr e => .expr e.blank
  length_texts_blank p := by
    cases p with
    | operand e => exact length_texts_blank e
    | chain head tail => exact length_texts_blank ((.or, head) :: tail)
    | expr e => exact length_texts_blank e

end Expr

/-! ### Statements -/

section Items

variable {α : Type} [Literals α]

instance : Literals (Aliased α) where
  texts a := texts a.item
  names a := names a.item ++ names a.name?
  blank a := ⟨blank a.item, a.name?⟩
  length_texts_blank a := length_texts_blank a.item

end Items

instance : Literals SortKey where
  texts k := texts k.expr
  names k := names k.expr
  blank k := ⟨blank k.expr, k.ascending⟩
  length_texts_blank k := length_texts_blank k.expr

instance : Literals Select where
  texts q := texts q.columns ++ texts q.filter ++ texts q.groupBy ++ texts q.having ++
    texts q.orderBy ++ texts q.limit
  names q := names q.columns ++ names q.tables ++ names q.filter ++ names q.groupBy ++
    names q.having ++ names q.orderBy ++ names q.limit
  blank q := ⟨blank q.columns, q.tables, blank q.filter, blank q.groupBy, blank q.having,
    blank q.orderBy, blank q.limit⟩
  length_texts_blank q := by
    simp only [List.length_append, length_texts_blank]

instance : Literals Statement where
  texts st := texts st.select
  names
    | .query q => names q
    | .create table q => table :: names q
  blank
    | .query q => .query (blank q)
    | .create table q => .create table (blank q)
  length_texts_blank st := by
    cases st with
    | query q => exact length_texts_blank q
    | create table q => exact length_texts_blank q

end QueryTrace

/-
The tree of operands and operators.

Operands with operators between them may be grouped in many ways.  The precedence of the operators
allows one of them, in which the root is looser than what stands to its left and no tighter than
what stands to its right, and this is the tree that is made.

* `OpTree` — a way to group operands, which are not looked into;
* `OpTree.Ordered` — the grouping keeps to the precedence;
* `splitLoosest_firstLoosest` — a chain is split at the first of its loosest operators;
* `OpTree.eq_of_ordered` — one ordered tree at most has given operands and operators;
* **`ofAlternating_only_ordered`** — the tree that is made is ordered, and no other is.

Design notes: an expression does not show how it was grouped, for an operand may be an operation
itself.  `OpTree` has the operands at its leaves.
-/
import QueryTrace.Proofs.Parsed

namespace QueryTrace

/-! ### Precedence -/

namespace BinOp

/-- The place of an operator in the list of all, the loosest first. -/
def tightness (op : BinOp) : Nat :=
  byLooseness.idxOf op

/-- The operator is looser than those before it and no tighter than those behind it. -/
def FirstLoosest (op : BinOp) (before after : List BinOp) : Prop :=
  (∀ o ∈ before, op.tightness < o.tightness) ∧ ∀ o ∈ after, op.tightness ≤ o.tightness

instance (op : BinOp) (before after : List BinOp) : Decidable (op.FirstLoosest before after) :=
  inferInstanceAs (Decidable (_ ∧ _))

variable {op o : BinOp} {looser tighter : List BinOp}

theorem tightness_of_split (h : byLooseness = looser ++ op :: tighter) (hop : op ∉ looser) :
    op.tightness = looser.length := by
  rw [tightness, h, List.idxOf_append, if_neg hop, List.idxOf_cons_self, Nat.zero_add]

theorem tightness_le (h : byLooseness = looser ++ op :: tighter) (hop : op ∉ looser)
    (ho : o ∉ looser) : op.tightness ≤ o.tightness := by
  rw [tightness_of_split h hop, tightness, h, List.idxOf_append, if_neg ho]
  exact Nat.le_add_left _ _

theorem tightness_lt (h : byLooseness = looser ++ op :: tighter) (hop : op ∉ looser)
    (ho : o ∉ looser) (hne : o ≠ op) : op.tightness < o.tightness := by
  rw [tightness_of_split h hop, tightness, h, List.idxOf_append, if_neg ho,
    List.idxOf_cons, beq_false_of_ne hne.symm, cond_false]
  omega

/-- No root stands behind another: it would be no looser than that one, and before it looser. -/
theorem FirstLoosest.eq_nil {before mid after after' : List BinOp} {op' : BinOp}
    (h : op.FirstLoosest before after) (h' : op'.FirstLoosest (before ++ mid) after')
    (he : op :: after = mid ++ op' :: after') : mid = [] := by
  cases mid with
  | nil => rfl
  | cons o mid =>
    obtain ⟨rfl, rfl⟩ := List.cons.inj he
    have hle := h.2 op' (by simp)
    have hlt := h'.1 op (by simp)
    omega

/-- Only one of given operators is the first of the loosest. -/
theorem FirstLoosest.unique {before before' after after' : List BinOp} {op' : BinOp}
    (h : op.FirstLoosest before after) (h' : op'.FirstLoosest before' after')
    (he : before ++ op :: after = before' ++ op' :: after') :
    before = before' ∧ op = op' ∧ after = after' := by
  rcases List.append_eq_append_iff.mp he with ⟨mid, rfl, ha⟩ | ⟨mid, rfl, ha⟩
  · obtain rfl := h.eq_nil h' ha
    simpa using ha
  · obtain rfl := h'.eq_nil h ha
    simpa [eq_comm] using ha

end BinOp

/-! ### Trees over operands -/

/-- A way to group operands and the operators between them. -/
inductive OpTree where
  | leaf (operand : Expr)
  | node (op : BinOp) (left right : OpTree)

namespace OpTree

/-- The expression that the tree is. -/
def toExpr : OpTree → Expr
  | leaf operand => operand
  | node op l r => .binary op l.toExpr r.toExpr

/-- The operands from left to right. -/
def operands : OpTree → List Expr
  | leaf operand => [operand]
  | node _ l r => l.operands ++ r.operands

/-- The operators from left to right. -/
def ops : OpTree → List BinOp
  | leaf _ => []
  | node op l r => l.ops ++ op :: r.ops

/-- At every node the operator is looser than those of the left part and no tighter than those of
the right part. -/
def Ordered : OpTree → Prop
  | leaf _ => True
  | node op l r => op.FirstLoosest l.ops r.ops ∧ l.Ordered ∧ r.Ordered

instance decidableOrdered : (t : OpTree) → Decidable t.Ordered
  | leaf _ => inferInstanceAs (Decidable True)
  | node op l r =>
    have := decidableOrdered l
    have := decidableOrdered r
    inferInstanceAs (Decidable (op.FirstLoosest l.ops r.ops ∧ l.Ordered ∧ r.Ordered))

theorem length_operands (t : OpTree) : t.operands.length = t.ops.length + 1 := by
  induction t with
  | leaf operand => rfl
  | node op l r ihl ihr =>
    simp only [operands, ops, List.length_append, List.length_cons, ihl, ihr]
    omega

/-- Operands and operators have one ordered tree at most. -/
theorem eq_of_ordered {t u : OpTree} (ht : t.Ordered) (hu : u.Ordered)
    (he : t.operands = u.operands) (ho : t.ops = u.ops) : t = u := by
  induction t generalizing u with
  | leaf operand =>
    cases u with
    | leaf operand' =>
      cases he
      rfl
    | node op l r => simp [ops] at ho
  | node op l r ihl ihr =>
    cases u with
    | leaf operand => simp [ops] at ho
    | node op' l' r' =>
      obtain ⟨hroot, hl, hr⟩ := ht
      obtain ⟨hroot', hl', hr'⟩ := hu
      obtain ⟨hol, rfl, hor⟩ := hroot.unique hroot' ho
      have hlen : l.operands.length = l'.operands.length := by
        rw [length_operands, length_operands, hol]
      obtain ⟨hel, her⟩ := List.append_inj he hlen
      rw [ihl hl hl' hel hol, ihr hr hr' her hor]

end OpTree

namespace Expr

/-! ### The tree of a chain -/

variable {op : BinOp} {head x : Expr} {tail before after : Tail}

theorem splitAtOp_eq_none (h : splitAtOp op tail = none) : op ∉ tail.map (·.1) := by
  induction tail with
  | nil => simp
  | cons p rest ih =>
    obtain ⟨o, e⟩ := p
    rw [splitAtOp] at h
    split at h
    · cases h
    · next ho =>
      rw [List.map_cons, List.mem_cons, not_or]
      exact ⟨fun hop => ho hop.symm, ih (Option.map_eq_none_iff.mp h)⟩

/-- A chain is split at the first of its loosest operators. -/
theorem splitLoosest_firstLoosest (h : splitLoosest tail = some (op, before, x, after)) :
    op.FirstLoosest (before.map (·.1)) (after.map (·.1)) := by
  obtain ⟨looser, o, tighter, hsplit, ho, hnone⟩ := List.findSome?_eq_some_iff.mp h
  obtain ⟨⟨b, y, a⟩, hb, he⟩ := Option.map_eq_some_iff.mp ho
  simp only [Prod.mk.injEq] at he
  obtain ⟨rfl, rfl, rfl, rfl⟩ := he
  obtain ⟨rfl, hne⟩ := splitAtOp_eq_some hb
  -- an operator that was tried before is nowhere in the chain
  have hmem : ∀ o' ∈ (b ++ (o, y) :: a).map (·.1), o' ∉ looser := fun o' ho' hl =>
    splitAtOp_eq_none (Option.map_eq_none_iff.mp (hnone o' hl)) ho'
  have hop : o ∉ looser := hmem o (by simp)
  refine ⟨fun o' ho' => ?_, fun o' ho' => ?_⟩
  · obtain ⟨p, hp, rfl⟩ := List.mem_map.mp ho'
    refine BinOp.tightness_lt hsplit hop (hmem p.1 ?_) (hne p hp)
    rw [List.map_append, List.mem_append]
    exact .inl ho'
  · refine BinOp.tightness_le hsplit hop (hmem o' ?_)
    rw [List.map_append, List.map_cons, List.mem_append, List.mem_cons]
    exact .inr (.inr ho')

theorem exists_ordered (head : Expr) (tail : Tail) :
    ∃ t : OpTree, t.toExpr = ofChain head tail ∧ t.operands = head :: tail.map (·.2) ∧
      t.ops = tail.map (·.1) ∧ t.Ordered := by
  fun_induction ofChain head tail with
  | case1 head tail hs =>
    rw [eq_nil_of_splitLoosest hs]
    exact ⟨.leaf head, rfl, rfl, rfl, trivial⟩
  | case2 head tail op before x after hs ihb iha =>
    obtain ⟨l, hle, hlo, hlops, hl⟩ := ihb
    obtain ⟨r, hre, hro, hrops, hr⟩ := iha
    have hroot := splitLoosest_firstLoosest hs
    refine ⟨.node op l r, ?_, ?_, ?_, ?_, hl, hr⟩
    · rw [OpTree.toExpr, hle, hre]
    · rw [OpTree.operands, hlo, hro, splitLoosest_eq_some hs]
      simp
    · rw [OpTree.ops, hlops, hrops, splitLoosest_eq_some hs]
      simp
    · rwa [hlops, hrops]

theorem ofAlternating_chain (head : Expr) (tail : Tail) :
    ofAlternating (head :: tail.map (·.2)) (tail.map (·.1)) = .ok (ofChain head tail) :=
  ofAlternating_eq_ok.mpr (assemble_chain head tail)

/-- Operands and operators that alternate are a chain. -/
theorem exists_chain {operands : List Expr} {ops : List BinOp}
    (h : operands.length = ops.length + 1) :
    ∃ (head : Expr) (tail : Tail), operands = head :: tail.map (·.2) ∧ ops = tail.map (·.1) := by
  obtain ⟨head, rest, rfl⟩ := List.exists_cons_of_length_eq_add_one h
  have hlen : rest.length = ops.length := Nat.succ.inj h
  refine ⟨head, ops.zip rest, ?_, ?_⟩
  · rw [List.map_snd_zip (Nat.le_of_eq hlen)]
  · rw [List.map_fst_zip (Nat.le_of_eq hlen.symm)]

theorem ofAlternating_of_length_ne {operands : List Expr} {ops : List BinOp}
    (h : operands.length ≠ ops.length + 1) :
    ofAlternating operands ops = .error .notAlternating := by
  have hnone : assemble operands ops = none := by
    cases operands with
    | nil => rfl
    | cons head rest =>
      rw [assemble, if_neg]
      exact fun hlen => h (congrArg (· + 1) hlen)
  rw [ofAlternating, hnone]

/-- **The tree that is made of operands and operators has them in their order and is ordered, and
it is the only such tree.**  Lists that do not alternate make none. -/
theorem ofAlternating_only_ordered (operands : List Expr) (ops : List BinOp) :
    (operands.length = ops.length + 1 →
      ∃ tree : OpTree, ofAlternating operands ops = .ok tree.toExpr ∧
        tree.operands = operands ∧ tree.ops = ops ∧ tree.Ordered ∧
        ∀ other : OpTree, other.operands = operands → other.ops = ops → other.Ordered →
          other = tree) ∧
    (operands.length ≠ ops.length + 1 →
      ofAlternating operands ops = .error .notAlternating) := by
  refine ⟨fun h => ?_, ofAlternating_of_length_ne⟩
  obtain ⟨head, tail, rfl, rfl⟩ := exists_chain h
  obtain ⟨tree, htree, hoperands, hops, hordered⟩ := exists_ordered head tail
  refine ⟨tree, ?_, hoperands, hops, hordered, fun other hoperands' hops' hordered' => ?_⟩
  · rw [ofAlternating_chain, htree]
  · exact OpTree.eq_of_ordered hordered' hordered (hoperands'.trans hoperands.symm)
      (hops'.trans hops.symm)

/-- Of `a - b * c - d` the ordered tree is `a - ((b * c) - d)`. -/
theorem ofAlternating_only_ordered_minuses :
    let a := column "a"; let b := column "b"; let c := column "c"; let d := column "d"
    let tree : OpTree :=
      .node .sub (.leaf a) (.node .sub (.node .mul (.leaf b) (.leaf c)) (.leaf d))
    [a, b, c, d].length = [BinOp.sub, .mul, .sub].length + 1 ∧
      ofAlternating [a, b, c, d] [.sub, .mul, .sub] = .ok tree.toExpr ∧
      (∀ other : OpTree, other.operands = [a, b, c, d] → other.ops = [.sub, .mul, .sub] →
        other.Ordered → other = tree) ∧
      [a, b].length ≠ [BinOp.sub, .mul].length + 1 ∧
      ofAlternating [a, b] [.sub, .mul] = .error .notAlternating := by
  intro a b c d tree
  have hmake := ofAlternating_only_ordered [a, b, c, d] [.sub, .mul, .sub]
  obtain ⟨made, hmade, -, -, -, honly⟩ := hmake.1 rfl
  have htree : tree = made := honly tree rfl rfl (by decide)
  refine ⟨rfl, htree ▸ hmade, htree ▸ honly, by decide, ?_⟩
  exact (ofAlternating_only_ordered [a, b] [.sub, .mul]).2 (by decide)

end Expr
end QueryTrace

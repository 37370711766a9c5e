/-
When the size of a product is judged as it should be.

The size of a product is multiplied up table by table, and each step has to fit in 64 bits.  A table
without rows makes the product empty, but it makes none of the steps before it smaller, so a product
that is as small as can be may still be refused.

* `productSize_of_sizesFit` and `productSize_of_not_sizesFit` — the size is judged by the limit if
  every step fits, and otherwise it is said to overflow;
* `sizesFit_of_ne_zero` — without an empty table, every step fits if the whole does;
* `rowBound` — the most rows that a product may have, and `JudgedExactly`: the product is taken if
  it has no more of them, and refused if it has;
* **`judgedExactly_iff`** — a product is judged exactly unless a table is empty and a step does not
  fit; the order of the tables matters to no other products.

Design notes: a limit is a number of 64 bits, so the bound on the rows is never above the greatest
of those numbers, whatever the limit.
-/
import QueryTrace.Proofs.NestedLoops

namespace QueryTrace.Trace

open Relational

/-! ### Sizes -/

theorem size_append (ts us : List Table) : size (ts ++ us) = size ts * size us := by
  induction ts with
  | nil => rw [List.nil_append, size, Nat.one_mul]
  | cons t ts ih => rw [List.cons_append, size, size, ih, Nat.mul_assoc]

theorem size_perm {ts us : List Table} (h : ts.Perm us) : size ts = size us := by
  induction h with
  | nil => rfl
  | cons t _ ih => rw [size, size, ih]
  | swap t u ts => rw [size, size, size, size, Nat.mul_left_comm]
  | trans _ _ ih ih' => rw [ih, ih']

/-- The first tables have no more combinations than all of them, if there are any. -/
theorem size_take_le {ts : List Table} (h : size ts ≠ 0) (k : Nat) :
    size (ts.take k) ≤ size ts := by
  have hsplit := size_append (ts.take k) (ts.drop k)
  rw [List.take_append_drop] at hsplit
  have hrest : size (ts.drop k) ≠ 0 := by
    intro hzero
    rw [hzero, Nat.mul_zero] at hsplit
    exact h hsplit
  rw [hsplit]
  exact Nat.le_mul_of_pos_right _ (Nat.pos_of_ne_zero hrest)

theorem sizesFit_of_ne_zero {ts : List Table} (h : size ts ≠ 0) :
    SizesFit ts ↔ size ts < UInt64.size := by
  constructor
  · intro hfit
    have hall := hfit ts.length (Nat.le_refl _)
    rwa [List.take_length] at hall
  · intro hlt k _
    exact Nat.lt_of_le_of_lt (size_take_le h k) hlt

/-! ### The multiplication -/

/-- If it comes to an end, every step has fitted. -/
theorem lt_of_foldlM_timesRows {ts : List Table} {n m : Nat} (hn : n < UInt64.size)
    (h : ts.foldlM timesRows n = .ok m) : ∀ k ≤ ts.length, n * size (ts.take k) < UInt64.size := by
  induction ts generalizing n with
  | nil =>
    intro k _
    rwa [List.take_nil, size, Nat.mul_one]
  | cons t ts ih =>
    rw [List.foldlM_cons] at h
    obtain ⟨next, hnext, h⟩ := except_bind_eq_ok.mp h
    rw [timesRows] at hnext
    split at hnext
    · next hfits =>
      cases hnext
      intro k hk
      cases k with
      | zero => rwa [List.take_zero, size, Nat.mul_one]
      | succ k =>
        rw [List.take_succ_cons, size, ← Nat.mul_assoc]
        exact ih hfits h k (Nat.le_of_succ_le_succ hk)
    · cases hnext

theorem error_of_foldlM_timesRows {ts : List Table} {n : Nat} {cause : ResourceError}
    (h : ts.foldlM timesRows n = .error cause) : cause = .productOverflow := by
  induction ts generalizing n with
  | nil => cases h
  | cons t ts ih =>
    rw [List.foldlM_cons, timesRows] at h
    split at h
    · exact ih h
    · cases h
      rfl

theorem productSize_of_sizesFit {ts : List Table} (limits : Limits) (h : SizesFit ts) :
    productSize limits ts = match limits.maxProductRows with
      | some limit =>
        if limit < size ts then .error (.productTooLarge (size ts) limit) else .ok (size ts)
      | none => .ok (size ts) := by
  have hsize := foldlM_timesRows (n := 1) fun k hk => by
    rw [Nat.one_mul]
    exact h k hk
  rw [Nat.one_mul] at hsize
  rw [productSize, hsize]
  rfl

theorem productSize_of_not_sizesFit {ts : List Table} (limits : Limits) (h : ¬ SizesFit ts) :
    productSize limits ts = .error .productOverflow := by
  rw [productSize]
  cases hsize : ts.foldlM timesRows 1 with
  | ok n =>
    refine absurd (fun k hk => ?_) h
    have hk := lt_of_foldlM_timesRows (by decide) hsize k hk
    rwa [Nat.one_mul] at hk
  | error cause =>
    rw [error_of_foldlM_timesRows hsize]
    rfl

/-! ### The judgement -/

/-- The most rows that a product may have. -/
def rowBound (limits : Limits) : Nat :=
  match limits.maxProductRows with
  | some limit => min limit (UInt64.size - 1)
  | none => UInt64.size - 1

/-- Is the size of the product found if it is within the bound, and refused otherwise? -/
def JudgedExactly (limits : Limits) (ts : List Table) : Prop :=
  (size ts ≤ rowBound limits → productSize limits ts = .ok (size ts)) ∧
  (rowBound limits < size ts → ∃ cause, productSize limits ts = .error cause)

variable {ts us : List Table}

theorem rowBound_lt (limits : Limits) : rowBound limits < UInt64.size := by
  have hpos : 0 < UInt64.size := by decide
  unfold rowBound
  split <;> omega

theorem judgedExactly_of_sizesFit (limits : Limits) (h : SizesFit ts) :
    JudgedExactly limits ts := by
  have hsize : size ts < UInt64.size := by
    have hall := h ts.length (Nat.le_refl _)
    rwa [List.take_length] at hall
  rw [JudgedExactly, productSize_of_sizesFit limits h, rowBound]
  cases limits.maxProductRows with
  | none =>
    dsimp only
    exact ⟨fun _ => rfl, fun _ => by omega⟩
  | some limit =>
    dsimp only
    constructor
    · intro hle
      rw [if_neg (by omega)]
    · intro hlt
      rw [if_pos (by omega)]
      exact ⟨_, rfl⟩

theorem judgedExactly_of_ne_zero (limits : Limits) (h : size ts ≠ 0) : JudgedExactly limits ts := by
  by_cases hfit : SizesFit ts
  · exact judgedExactly_of_sizesFit limits hfit
  · -- a step overflows, and then so does the whole
    rw [sizesFit_of_ne_zero h] at hfit
    have hbound := rowBound_lt limits
    have hnot : ¬ SizesFit ts := mt (sizesFit_of_ne_zero h).mp hfit
    refine ⟨fun hle => by omega, fun _ => ⟨_, productSize_of_not_sizesFit limits hnot⟩⟩

theorem sizesFit_of_productSize {limits : Limits} {n : Nat} (h : productSize limits ts = .ok n) :
    SizesFit ts := by
  by_cases hfit : SizesFit ts
  · exact hfit
  · rw [productSize_of_not_sizesFit limits hfit] at h
    cases h

/-- Two products of one size are judged alike if their steps fit alike. -/
theorem productSize_congr (limits : Limits) (hsize : size ts = size us)
    (hfit : SizesFit ts ↔ SizesFit us) : productSize limits ts = productSize limits us := by
  by_cases h : SizesFit ts
  · rw [productSize_of_sizesFit limits h, productSize_of_sizesFit limits (hfit.mp h), hsize]
  · rw [productSize_of_not_sizesFit limits h, productSize_of_not_sizesFit limits (mt hfit.mpr h)]

/-- **The size of a product is judged exactly**, and for every order of the tables alike, unless a
table is empty and a step of the multiplication does not fit in 64 bits.  Then an empty product is
refused for its size. -/
theorem judgedExactly_iff (limits : Limits) (ts : List Table) :
    (JudgedExactly limits ts ↔ size ts ≠ 0 ∨ SizesFit ts) ∧
    (¬ JudgedExactly limits ts →
      size ts = 0 ∧ productSize limits ts = .error .productOverflow) ∧
    ∀ us : List Table, us.Perm ts →
      (productSize limits us = productSize limits ts ↔
        size ts ≠ 0 ∨ (SizesFit us ↔ SizesFit ts)) := by
  have hexact : JudgedExactly limits ts ↔ size ts ≠ 0 ∨ SizesFit ts := by
    constructor
    · intro h
      by_cases hzero : size ts = 0
      · have hok := h.1 (by omega)
        exact .inr (sizesFit_of_productSize hok)
      · exact .inl hzero
    · rintro (h | h)
      · exact judgedExactly_of_ne_zero limits h
      · exact judgedExactly_of_sizesFit limits h
  refine ⟨hexact, fun hnot => ?_, fun us hperm => ⟨fun hsame => ?_, ?_⟩⟩
  · rw [hexact, not_or, Decidable.not_not] at hnot
    exact ⟨hnot.1, productSize_of_not_sizesFit limits hnot.2⟩
  · -- an empty product is found if the steps fit, and it is refused otherwise
    by_cases hzero : size ts = 0
    · have hzero' : size us = 0 := (size_perm hperm).trans hzero
      refine .inr ⟨fun h => ?_, fun h => ?_⟩
      · have hok := (judgedExactly_of_sizesFit limits h).1 (by omega)
        exact sizesFit_of_productSize (hsame ▸ hok)
      · have hok := (judgedExactly_of_sizesFit limits h).1 (by omega)
        exact sizesFit_of_productSize (hsame.trans hok)
    · exact .inl hzero
  · have hsize := size_perm hperm
    rintro (hne | hfit)
    · refine productSize_congr limits hsize ?_
      rw [sizesFit_of_ne_zero hne, sizesFit_of_ne_zero (hsize ▸ hne), hsize]
    · exact productSize_congr limits hsize hfit

/-- Sixty-four tables of two rows each. -/
def pairs : List Table :=
  List.replicate 64 ⟨["t.x"], [[.text "p"], [.text "q"]]⟩

/-- A table without rows. -/
def noRows : Table :=
  ⟨["e.y"], []⟩

/-- Behind the pairs the empty table is too late, and in front of them it is not. -/
theorem judgedExactly_iff_pairs :
    (¬ JudgedExactly {} (pairs ++ [noRows]) ∧ size (pairs ++ [noRows]) = 0 ∧
      productSize {} (pairs ++ [noRows]) = .error .productOverflow) ∧
    (noRows :: pairs).Perm (pairs ++ [noRows]) ∧ productSize {} (noRows :: pairs) = .ok 0 ∧
      ¬ (SizesFit (noRows :: pairs) ↔ SizesFit (pairs ++ [noRows])) := by
  obtain ⟨-, hrefused, horder⟩ := judgedExactly_iff {} (pairs ++ [noRows])
  have hzero : size (pairs ++ [noRows]) = 0 := by decide
  have hlate : productSize {} (pairs ++ [noRows]) = .error .productOverflow := by rfl
  have hearly : productSize {} (noRows :: pairs) = .ok 0 := by rfl
  have hnot : ¬ JudgedExactly {} (pairs ++ [noRows]) := by
    intro h
    rw [JudgedExactly, hzero, hlate] at h
    cases h.1 (Nat.zero_le _)
  have hperm : (noRows :: pairs).Perm (pairs ++ [noRows]) := (List.perm_append_singleton _ _).symm
  refine ⟨⟨hnot, hrefused hnot⟩, hperm, hearly, fun hfit => ?_⟩
  have hsame := (horder _ hperm).mpr (.inr hfit)
  rw [hearly, hlate] at hsame
  cases hsame

end QueryTrace.Trace

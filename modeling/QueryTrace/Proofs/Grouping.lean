/-
Groups of rows divide the rows.

A table can be grouped row by row: a row goes to the group of its key, or it is the first of a new
one.  What every such step keeps is that each row so far is in one group.

* `addRow` — one row more, and **`groupsOf_concat`**: the groups of all rows come about so;
* **`groupsOf_eq_foldl`**, **`partition_eq_foldlM`** — the loop over all keys, and the loop over all
  rows that finds the key of each;
* `Divides n groups` — each number below `n` is in one group, and the groups come in the order of
  their first members;
* `Divides.addRow`, `divides_groupsOf` — a step keeps that, so it holds of the groups of all rows;
* `regrouped_groupsOf` — rows in another order are in the same groups as before;
* **`partition_divides`** — the groups of a table, and when there are none.

Design notes: keys are texts, so rows with different values may be in one group.  What is said of
keys is therefore about the texts of the values and their separator.
-/
import Mathlib.Data.List.Forall2
import Mathlib.Data.List.Induction
import Mathlib.Data.List.Nodup
import QueryTrace.Proofs.NestedLoops
import QueryTrace.Proofs.Selection

namespace QueryTrace.Trace

/-! ### One row more -/

/-- The groups with one row more: it goes to the first group with its key, or to a new one. -/
def addRow (groups : List RowGroup) (key : String) (i : Nat) : List RowGroup :=
  match groups.findIdx? (·.key == key) with
  | some id => groups.modify id fun g => { g with members := g.members ++ [i] }
  | none => groups ++ [⟨key, [i]⟩]

/-- A row opens a group, or goes to the end of one. -/
theorem addRow_cases (groups : List RowGroup) (key : String) (i : Nat) :
    ((∀ g ∈ groups, g.key ≠ key) ∧ addRow groups key i = groups ++ [⟨key, [i]⟩]) ∨
    ∃ before members after, groups = before ++ ⟨key, members⟩ :: after ∧
      addRow groups key i = before ++ ⟨key, members ++ [i]⟩ :: after := by
  rw [addRow]
  cases h : groups.findIdx? (·.key == key) with
  | none => exact .inl ⟨by simpa using h, rfl⟩
  | some id =>
    obtain ⟨hid, hkey, -⟩ := List.findIdx?_eq_some_iff_getElem.mp h
    rw [beq_iff_eq] at hkey
    subst hkey
    refine .inr ⟨groups.take id, groups[id].members, groups.drop (id + 1), ?_, ?_⟩
    · rw [← List.drop_eq_getElem_cons hid, List.take_append_drop]
    · exact List.modify_eq_take_cons_drop hid

theorem membersOf_concat (keys : List String) (key key' : String) :
    membersOf (keys ++ [key]) key' =
      membersOf keys key' ++ if key = key' then [keys.length] else [] := by
  rw [membersOf, List.zipIdx_append, List.filterMap_append]
  by_cases h : key = key' <;> simp [membersOf, h]

theorem eraseDups_concat (keys : List String) (key : String) :
    (keys ++ [key]).eraseDups = keys.eraseDups ++ if key ∈ keys then [] else [key] := by
  rw [List.eraseDups_append]
  by_cases h : key ∈ keys <;> simp [List.removeAll, List.eraseDups_cons, h]

/-- The members of a group with another key stay the same. -/
theorem map_membersOf_concat {ks : List String} {key : String} (h : key ∉ ks)
    (keys : List String) :
    (ks.map fun k => (⟨k, membersOf (keys ++ [key]) k⟩ : RowGroup)) =
      ks.map fun k => ⟨k, membersOf keys k⟩ := by
  refine List.map_congr_left fun k hk => ?_
  have hne : key ≠ k := by
    rintro rfl
    exact h hk
  rw [membersOf_concat, if_neg hne, List.append_nil]

/-- **The groups of rows come about row by row.** -/
theorem groupsOf_concat (keys : List String) (key : String) :
    groupsOf (keys ++ [key]) = addRow (groupsOf keys) key keys.length := by
  have hnodup := nodup_eraseDups keys
  have hmem : key ∈ keys.eraseDups ↔ key ∈ keys := List.mem_eraseDups
  rw [groupsOf, eraseDups_concat, List.map_append]
  rcases addRow_cases (groupsOf keys) key keys.length with ⟨hnew, h⟩ |
    ⟨before, members, after, hold, h⟩
  · have hkey : key ∉ keys := fun hk => hnew _ (List.mem_map_of_mem (hmem.mpr hk)) rfl
    have hnone : membersOf keys key = [] := List.eq_nil_iff_forall_not_mem.mpr fun i hi =>
      hkey (List.mem_of_getElem? (mem_members.mp hi))
    rw [h, if_neg hkey, map_membersOf_concat (mt hmem.mp hkey)]
    simp [groupsOf, membersOf_concat, hnone]
  · obtain ⟨ks, rest, hks, hbefore, hrest⟩ := List.map_eq_append_iff.mp hold
    obtain ⟨k, ks', rfl, hk, hafter⟩ := List.map_eq_cons_iff.mp hrest
    obtain ⟨rfl, rfl⟩ := RowGroup.mk.inj hk
    rw [hks] at hnodup hmem
    have hapart := List.nodup_middle.mp hnodup
    rw [List.nodup_cons, List.mem_append, not_or] at hapart
    rw [h, if_pos (hmem.mp (by simp)), hks, List.map_append, List.map_cons,
      map_membersOf_concat hapart.1.1, map_membersOf_concat hapart.1.2, membersOf_concat,
      if_pos rfl, hbefore, hafter]
    simp

/-- **The groups of rows are those of a loop over the keys** that begins without groups. -/
theorem groupsOf_eq_foldl (keys : List String) :
    groupsOf keys = keys.zipIdx.foldl (fun groups (key, i) => addRow groups key i) [] := by
  induction keys using List.reverseRecOn with
  | nil => rfl
  | append_singleton keys key ih =>
    rw [groupsOf_concat, ih, List.zipIdx_append, List.foldl_append, List.zipIdx_singleton,
      Nat.zero_add]
    rfl

/-- A loop over the results of calculations can do each of them when its turn comes. -/
theorem map_foldl_mapM {ε α β γ : Type} (f : α → Except ε β) (step : γ → β → Nat → γ)
    (l : List α) (start : γ) (k : Nat) :
    ((l.mapM f).map fun bs => (bs.zipIdx k).foldl (fun c (b, i) => step c b i) start) =
      (l.zipIdx k).foldlM (fun c (a, i) => (f a).map (step c · i)) start := by
  induction l generalizing start k with
  | nil => rfl
  | cons a l ih =>
    rw [List.mapM_cons, List.zipIdx_cons, List.foldlM_cons]
    dsimp only
    cases f a with
    | error e => rfl
    | ok b =>
      rw [except_ok_bind]
      refine Eq.trans ?_ (ih (step start b k) (k + 1))
      cases l.mapM f <;> rfl

/-- **A table is grouped row by row**: the key of a row is found and the row is added. -/
theorem partition_eq_foldlM (aliases : List (Aliased Expr)) (exprs : List Expr) (t : Table) :
    partition aliases exprs t = t.rows.zipIdx.foldlM (fun groups (row, i) =>
      (rowKey { columns := t.columns, aliases } exprs row).map (addRow groups · i)) [] := by
  rw [partition, rowKeys, funext groupsOf_eq_foldl]
  exact map_foldl_mapM _ addRow t.rows [] 0

/-! ### What a step keeps -/

/-- Do the groups divide the numbers below `n` among them, in the order of their first members? -/
structure Divides (n : Nat) (groups : List RowGroup) : Prop where
  nonempty : ∀ g ∈ groups, g.members ≠ []
  increasing : ∀ g ∈ groups, g.members.Pairwise (· < ·)
  /-- No number is in two groups, and none is left out. -/
  once : (groups.flatMap (·.members)).Perm (List.range n)
  ordered : (groups.filterMap (·.members.head?)).Pairwise (· < ·)
  keys_nodup : (groups.map (·.key)).Nodup

theorem Divides.lt {n i : Nat} {groups : List RowGroup} {g : RowGroup} (h : Divides n groups)
    (hg : g ∈ groups) (hi : i ∈ g.members) : i < n :=
  List.mem_range.mp (h.once.mem_iff.mp (List.mem_flatMap.mpr ⟨g, hg, hi⟩))

section Step

variable {n : Nat} {key : String} {groups before after : List RowGroup} {members : List Nat}

theorem Divides.append_group (h : Divides n groups) (hnew : ∀ g ∈ groups, g.key ≠ key) :
    Divides (n + 1) (groups ++ [⟨key, [n]⟩]) where
  nonempty := List.forall_mem_append.mpr ⟨h.nonempty, by simp⟩
  increasing := List.forall_mem_append.mpr ⟨h.increasing, by simp⟩
  once := by
    rw [List.flatMap_append, List.range_succ]
    exact h.once.append_right [n]
  ordered := by
    rw [List.filterMap_append, List.pairwise_append]
    refine ⟨h.ordered, by simp, fun i hi j hj => ?_⟩
    obtain ⟨g, hg, hhead⟩ := List.mem_filterMap.mp hi
    obtain rfl : j = n := by simpa using hj
    exact h.lt hg (List.mem_of_head? hhead)
  keys_nodup := by
    rw [List.map_append, List.nodup_append]
    refine ⟨h.keys_nodup, by simp, fun k hk k' hk' => ?_⟩
    obtain ⟨g, hg, rfl⟩ := List.mem_map.mp hk
    obtain rfl : k' = key := by simpa using hk'
    exact hnew g hg

/-- The group that the row goes to has members before it, all of them smaller. -/
theorem Divides.append_member (h : Divides n (before ++ ⟨key, members⟩ :: after)) :
    Divides (n + 1) (before ++ ⟨key, members ++ [n]⟩ :: after) where
  nonempty := by
    have hold := h.nonempty
    rw [List.forall_mem_append, List.forall_mem_cons] at hold ⊢
    exact ⟨hold.1, by simp, hold.2.2⟩
  increasing := by
    have hold := h.increasing
    rw [List.forall_mem_append, List.forall_mem_cons] at hold ⊢
    refine ⟨hold.1, List.pairwise_append.mpr ⟨hold.2.1, by simp, fun i hi j hj => ?_⟩, hold.2.2⟩
    obtain rfl := List.mem_singleton.mp hj
    exact h.lt (List.mem_append_right _ List.mem_cons_self) hi
  once := by
    have hold := h.once
    simp only [List.flatMap_append, List.flatMap_cons, ← List.append_assoc] at hold
    rw [List.range_succ]
    simp only [List.flatMap_append, List.flatMap_cons, ← List.append_assoc]
    rw [List.append_assoc _ [n]]
    exact (List.perm_middle.trans (hold.cons n)).trans (List.perm_append_singleton n _).symm
  ordered := by
    obtain ⟨m, ms, rfl⟩ :=
      List.exists_cons_of_ne_nil (h.nonempty _ (List.mem_append_right _ List.mem_cons_self))
    have hold := h.ordered
    simp only [List.filterMap_append, List.filterMap_cons, List.head?_cons] at hold
    simpa only [List.filterMap_append, List.filterMap_cons, List.cons_append, List.head?_cons]
  keys_nodup := by
    have hold := h.keys_nodup
    rw [List.map_append, List.map_cons] at hold ⊢
    exact hold

theorem Divides.addRow (h : Divides n groups) (key : String) :
    Divides (n + 1) (addRow groups key n) := by
  rcases addRow_cases groups key n with ⟨hnew, he⟩ | ⟨before, members, after, rfl, he⟩
  · rw [he]
    exact h.append_group hnew
  · rw [he]
    exact h.append_member

end Step

/-- By induction on the rows, from the last one. -/
theorem divides_groupsOf (keys : List String) : Divides keys.length (groupsOf keys) := by
  induction keys using List.reverseRecOn with
  | nil => exact ⟨by simp [groupsOf], by simp [groupsOf], .nil, .nil, .nil⟩
  | append_singleton keys key ih =>
    rw [groupsOf_concat, List.length_append]
    exact ih.addRow key

/-! ### Calculations for each item -/

section Sequences

variable {ε α β : Type} {f : α → Except ε β} {l : List α} {bs : List β}

theorem mapM_eq_ok_iff : l.mapM f = .ok bs ↔ List.Forall₂ (fun a b => f a = .ok b) l bs := by
  induction l generalizing bs with
  | nil => simp [pure, Except.pure, eq_comm]
  | cons a l ih =>
    rw [List.mapM_cons, except_bind_eq_ok, List.forall₂_cons_left_iff]
    simp only [except_bind_eq_ok, ih]
    constructor
    · rintro ⟨b, hb, rest, hrest, ⟨⟩⟩
      exact ⟨b, rest, hb, hrest, rfl⟩
    · rintro ⟨b, rest, hb, hrest, rfl⟩
      exact ⟨b, hb, rest, hrest, rfl⟩

theorem exists_mapM_eq_ok_iff : (∃ bs, l.mapM f = .ok bs) ↔ ∀ a ∈ l, ∃ b, f a = .ok b := by
  induction l with
  | nil => simp [pure, Except.pure]
  | cons a l ih =>
    rw [List.forall_mem_cons, ← ih, List.mapM_cons]
    simp only [except_bind_eq_ok]
    constructor
    · rintro ⟨-, b, hb, rest, hrest, -⟩
      exact ⟨⟨b, hb⟩, rest, hrest⟩
    · rintro ⟨⟨b, hb⟩, rest, hrest⟩
      exact ⟨b :: rest, b, hb, rest, hrest, rfl⟩

/-- The error is that of the first item that has no value. -/
theorem mapM_eq_error_iff {e : ε} : l.mapM f = .error e ↔ ∃ before a after,
    l = before ++ a :: after ∧ (∀ b ∈ before, ∃ v, f b = .ok v) ∧ f a = .error e := by
  constructor
  · intro h
    induction l with
    | nil => cases h
    | cons a l ih =>
      rw [List.mapM_cons] at h
      cases hf : f a with
      | error e' =>
        rw [hf] at h
        cases h
        exact ⟨[], a, l, rfl, by simp, hf⟩
      | ok b =>
        rw [hf, except_ok_bind] at h
        cases hl : l.mapM f with
        | error e' =>
          rw [hl] at h
          cases h
          obtain ⟨before, a', after, rfl, hbefore, ha'⟩ := ih hl
          exact ⟨a :: before, a', after, rfl, List.forall_mem_cons.mpr ⟨⟨b, hf⟩, hbefore⟩, ha'⟩
        | ok bs =>
          rw [hl] at h
          cases h
  · rintro ⟨before, a, after, rfl, hbefore, ha⟩
    obtain ⟨bs, hbs⟩ := exists_mapM_eq_ok_iff.mpr hbefore
    rw [List.mapM_append, hbs, except_ok_bind, List.mapM_cons, ha]
    rfl

theorem getElem?_of_mapM (h : l.mapM f = .ok bs) {i : Nat} {a : α} (hi : l[i]? = some a) :
    ∃ b, f a = .ok b ∧ bs[i]? = some b := by
  have hall := mapM_eq_ok_iff.mp h
  clear h
  induction hall generalizing i with
  | nil => simp at hi
  | @cons a' b' _ _ hab _ ih =>
    cases i with
    | zero =>
      cases hi
      exact ⟨b', hab, rfl⟩
    | succ i => exact ih hi

/-- The values for items in another order are the values in that order. -/
theorem mapM_reordered (h : l.mapM f = .ok bs) (order : List Nat) :
    (order.filterMap fun j => l[j]?).mapM f = .ok (order.filterMap fun j => bs[j]?) := by
  rw [mapM_eq_ok_iff]
  induction order with
  | nil => exact .nil
  | cons j order ih =>
    cases hj : l[j]? with
    | none =>
      have hbs : bs[j]? = none := by
        rw [List.getElem?_eq_none_iff] at hj ⊢
        rwa [mapM_length h]
      rwa [List.filterMap_cons_none hj, List.filterMap_cons_none hbs]
    | some a =>
      obtain ⟨b, hb, hbs⟩ := getElem?_of_mapM h hj
      rw [List.filterMap_cons_some hj, List.filterMap_cons_some hbs]
      exact .cons hb ih

theorem filterMap_range (l : List α) : ((List.range l.length).filterMap fun j => l[j]?) = l := by
  apply List.ext_getElem?
  intro i
  rw [getElem?_filterMap_of_isSome (by simp)]
  by_cases hi : i < l.length
  · rw [List.getElem?_range hi]
    rfl
  · rw [List.getElem?_eq_none (by simpa using hi), List.getElem?_eq_none (by omega)]
    rfl

theorem reordered_perm {order : List Nat} (h : order.Perm (List.range l.length)) :
    (order.filterMap fun j => l[j]?).Perm l := by
  have hperm := h.filterMap fun j => l[j]?
  rwa [filterMap_range] at hperm

theorem zip_reordered {l' : List β} (h : l.length = l'.length) (order : List Nat) :
    (order.filterMap fun j => l[j]?).zip (order.filterMap fun j => l'[j]?) =
      order.filterMap fun j => (l.zip l')[j]? := by
  induction order with
  | nil => rfl
  | cons j order ih =>
    by_cases hj : j < l.length
    · have hj' : j < l'.length := h ▸ hj
      have hz : j < (l.zip l').length := by
        rw [List.length_zip]
        omega
      rw [List.filterMap_cons_some (List.getElem?_eq_getElem hj),
        List.filterMap_cons_some (List.getElem?_eq_getElem hj'),
        List.filterMap_cons_some (List.getElem?_eq_getElem hz), List.zip_cons_cons, ih,
        List.getElem_zip]
    · have hz : (l.zip l').length ≤ j := by
        rw [List.length_zip]
        omega
      rw [List.filterMap_cons_none (List.getElem?_eq_none (by omega)),
        List.filterMap_cons_none (List.getElem?_eq_none (by omega)),
        List.filterMap_cons_none (List.getElem?_eq_none hz), ih]

end Sequences

/-! ### Keys of rows -/

/-- The texts of the row's values, put one behind the other, are the key. -/
def HasKey (scope : Scope) (exprs : List Expr) (row : Row) (key : String) : Prop :=
  ∃ values, List.Forall₂ (fun e v => scope.evaluate e row = .ok v) exprs values ∧
    "-------".intercalate (values.map Value.display) = key

/-- The failure is that of the first row that has no key, and in it that of the first expression
that has no value. -/
def FirstFailure (scope : Scope) (exprs : List Expr) (rows : List Row) (cause : EvalError) :
    Prop :=
  ∃ rows₁ row rows₂ exprs₁ e exprs₂, rows = rows₁ ++ row :: rows₂ ∧
    exprs = exprs₁ ++ e :: exprs₂ ∧ (∀ r ∈ rows₁, ∀ x ∈ exprs, ∃ v, scope.evaluate x r = .ok v) ∧
    (∀ x ∈ exprs₁, ∃ v, scope.evaluate x row = .ok v) ∧ scope.evaluate e row = .error cause

section Keys

variable {scope : Scope} {exprs : List Expr} {row : Row} {rows : List Row}

theorem rowKey_eq_ok_iff {key : String} :
    rowKey scope exprs row = .ok key ↔ HasKey scope exprs row key := by
  rw [rowKey, except_bind_eq_ok]
  simp only [mapM_eq_ok_iff]
  refine exists_congr fun values => and_congr_right fun _ => ?_
  simp [pure, Except.pure, keySeparator]

theorem rowKey_eq_error_iff {cause : EvalError} : rowKey scope exprs row = .error cause ↔
    exprs.mapM (fun e => scope.evaluate e row) = .error cause := by
  rw [rowKey]
  cases exprs.mapM fun e => scope.evaluate e row <;> simp [pure, Except.pure]

theorem exists_rowKey_eq_ok_iff : (∃ key, rowKey scope exprs row = .ok key) ↔
    ∀ e ∈ exprs, ∃ v, scope.evaluate e row = .ok v := by
  rw [← exists_mapM_eq_ok_iff, rowKey]
  cases exprs.mapM fun e => scope.evaluate e row <;> simp [pure, Except.pure]

theorem mapM_rowKey_eq_error_iff {cause : EvalError} :
    rows.mapM (rowKey scope exprs) = .error cause ↔ FirstFailure scope exprs rows cause := by
  simp only [mapM_eq_error_iff, rowKey_eq_error_iff, exists_rowKey_eq_ok_iff]
  constructor
  · rintro ⟨rows₁, row, rows₂, rfl, hrows, exprs₁, e, exprs₂, rfl, hexprs, he⟩
    exact ⟨rows₁, row, rows₂, exprs₁, e, exprs₂, rfl, rfl, hrows, hexprs, he⟩
  · rintro ⟨rows₁, row, rows₂, exprs₁, e, exprs₂, rfl, rfl, hrows, hexprs, he⟩
    exact ⟨rows₁, row, rows₂, rfl, hrows, exprs₁, e, exprs₂, rfl, hexprs, he⟩

/-- A row is in the group of its key. -/
theorem mem_group_iff {keys : List String} (h : rows.mapM (rowKey scope exprs) = .ok keys) {i : Nat}
    (hi : rows[i]? = some row) {g : RowGroup} (hg : g ∈ groupsOf keys) :
    i ∈ g.members ↔ HasKey scope exprs row g.key := by
  obtain ⟨key, -, rfl⟩ := List.mem_map.mp hg
  obtain ⟨key', hkey', hplace⟩ := getElem?_of_mapM h hi
  rw [mem_members, hplace, ← rowKey_eq_ok_iff, hkey', Option.some.injEq, Except.ok.injEq]

end Keys

/-! ### Rows in another order -/

/-- The second group is the first one after the rows were put in the order: it has the same key and
the same rows. -/
def Regrouped (t : Table) (order : List Nat) (g g' : RowGroup) : Prop :=
  g'.key = g.key ∧ (∀ i j, order[i]? = some j → (i ∈ g'.members ↔ j ∈ g.members)) ∧
    ((t.selectRows order).selectRows g'.members).rows.Perm (t.selectRows g.members).rows

section Reordering

variable {t : Table} {keys : List String} {order : List Nat}

theorem getElem?_reordered (h : order.Perm (List.range keys.length)) (i : Nat) :
    (order.filterMap fun j => keys[j]?)[i]? = order[i]?.bind fun j => keys[j]? := by
  refine getElem?_filterMap_of_isSome (fun j hj => ?_) i
  simpa using h.mem_iff.mp hj

theorem eraseDups_perm {keys' : List String} (h : keys'.Perm keys) :
    keys'.eraseDups.Perm keys.eraseDups := by
  refine (List.perm_ext_iff_of_nodup (nodup_eraseDups _) (nodup_eraseDups _)).mpr fun key => ?_
  rw [List.mem_eraseDups, List.mem_eraseDups, h.mem_iff]

/-- Rows in another order are in the same groups as before. -/
theorem regrouped_groupsOf (hlen : keys.length = t.rows.length)
    (h : order.Perm (List.range keys.length)) :
    ∃ matched, matched.Perm (groupsOf (order.filterMap fun j => keys[j]?)) ∧
      List.Forall₂ (Regrouped t order) (groupsOf keys) matched := by
  let keys' := order.filterMap fun j => keys[j]?
  refine ⟨keys.eraseDups.map fun key => ⟨key, membersOf keys' key⟩,
    (eraseDups_perm (reordered_perm h)).symm.map _, ?_⟩
  rw [groupsOf, List.forall₂_map_left_iff, List.forall₂_map_right_iff, List.forall₂_same]
  intro key _
  refine ⟨rfl, fun i j hij => ?_, ?_⟩
  · rw [mem_members, mem_members, getElem?_reordered h, hij]
    rfl
  · have hrows : (t.selectRows order).rows = order.filterMap fun j => t.rows[j]? := by
      rw [Table.selectRows_eq]
    have hzip : (keys'.zip (t.selectRows order).rows).Perm (keys.zip t.rows) := by
      rw [hrows, zip_reordered hlen]
      refine reordered_perm ?_
      rwa [List.length_zip, ← hlen, Nat.min_self]
    have hlen' : keys'.length = (t.selectRows order).rows.length := by
      rw [hrows, (reordered_perm h).length_eq, hlen]
      exact (reordered_perm (hlen ▸ h)).length_eq.symm
    rw [selectRows_membersOf key hlen', selectRows_membersOf key hlen]
    exact hzip.filterMap _

end Reordering

/-! ### The groups of a table -/

/-- **The groups of a table divide its rows by their keys**, in whatever order the rows are.  There
are none exactly if an expression has no value on a row. -/
theorem partition_divides (aliases : List (Aliased Expr)) (exprs : List Expr) (t : Table) :
    (∀ groups, partition aliases exprs t = .ok groups →
      Divides t.rows.length groups ∧
      (∀ g ∈ groups, ∀ i row, t.rows[i]? = some row →
        (i ∈ g.members ↔ HasKey { columns := t.columns, aliases } exprs row g.key)) ∧
      ∀ order : List Nat, order.Perm (List.range t.rows.length) →
        ∃ groups' matched, partition aliases exprs (t.selectRows order) = .ok groups' ∧
          matched.Perm groups' ∧ List.Forall₂ (Regrouped t order) groups matched) ∧
    ∀ cause, partition aliases exprs t = .error cause ↔
      FirstFailure { columns := t.columns, aliases } exprs t.rows cause := by
  unfold partition rowKeys
  constructor
  · intro groups h
    rcases hkeys : t.rows.mapM (rowKey { columns := t.columns, aliases } exprs) with cause | keys
    · rw [hkeys] at h
      cases h
    rw [hkeys] at h
    cases h
    have hlen : keys.length = t.rows.length := mapM_length hkeys
    refine ⟨hlen ▸ divides_groupsOf keys, fun g hg i row hi => mem_group_iff hkeys hi hg, ?_⟩
    intro order horder
    rw [← hlen] at horder
    obtain ⟨matched, hmatched, hregrouped⟩ := regrouped_groupsOf hlen horder
    refine ⟨_, matched, ?_, hmatched, hregrouped⟩
    rw [Table.selectRows_eq, mapM_reordered hkeys]
    rfl
  · intro cause
    rw [← mapM_rowKey_eq_error_iff]
    cases t.rows.mapM (rowKey { columns := t.columns, aliases } exprs) <;> simp [Except.map]

/-- Three rows, of which the first and the last have one key, and a row that has no key. -/
theorem partition_divides_threeRows :
    let t : Table := ⟨["a", "b"], [[.text "x", .null], [.text "y", .null], [.text "x", .null]]⟩
    let groups : List RowGroup := [⟨"x-------NULL", [0, 2]⟩, ⟨"y-------NULL", [1]⟩]
    partition [] [.column "a", .column "b"] t = .ok groups ∧ Divides 3 groups ∧
      HasKey { columns := t.columns, aliases := [] } [.column "a", .column "b"]
        [.text "x", .null] "x-------NULL" ∧
      [2, 1, 0].Perm (List.range t.rows.length) ∧
      (∃ groups' matched, partition [] [.column "a", .column "b"] (t.selectRows [2, 1, 0]) =
        .ok groups' ∧ matched.Perm groups' ∧ List.Forall₂ (Regrouped t [2, 1, 0]) groups matched) ∧
      FirstFailure { columns := t.columns, aliases := [] } [.column "a", .column "c"] t.rows
        (.unknownColumn "c") ∧
      partition [] [.column "a", .column "c"] t = .error (.unknownColumn "c") := by
  intro t groups
  have hgroups : partition [] [.column "a", .column "b"] t = .ok groups := by cbv
  have horder : [2, 1, 0].Perm (List.range t.rows.length) := by decide
  obtain ⟨hdivides, hkeys, hreorder⟩ :=
    (partition_divides [] [.column "a", .column "b"] t).1 groups hgroups
  have hfails : FirstFailure { columns := t.columns, aliases := [] } [.column "a", .column "c"]
      t.rows (.unknownColumn "c") :=
    ⟨[], _, _, [.column "a"], .column "c", [], rfl, rfl, by simp,
      List.forall_mem_singleton.mpr ⟨.text "x", by cbv⟩, by cbv⟩
  exact ⟨hgroups, hdivides, (hkeys _ List.mem_cons_self 0 _ rfl).mp (by simp), horder,
    hreorder _ horder, hfails, ((partition_divides [] _ t).2 _).mpr hfails⟩

end QueryTrace.Trace

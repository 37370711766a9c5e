/-
What rows in one group have in common.

Rows are in one group when the texts of their values are equal once they are put one behind the
other.  From such a key the values can be found again if they are known to be of the same kinds, and
if no text hides where it ends: a text that holds a separator may be two texts, and so may one that
ends in a dash, because the separator is made of dashes.

* **`SameKind.display_inj`** — values of one kind are the same if their texts are;
* `Clear` — texts of which one sees the end, and `clear_display`: numbers and words are such;
* `intercalate_inj` — clear texts are found again in what they were put together to;
* **`partition_together_iff`** — when rows are in one group;
* `partition_collisions` — different values with one key.

Design notes: the last value of a key may be any text, since nothing stands behind it.  A number has
a dash at its beginning at most, which is too few for a separator.
-/
import QueryTrace.Proofs.Grouping
import QueryTrace.Proofs.RealTexts

namespace QueryTrace

open Decimal

/-! ### Texts of values -/

namespace Value

/-- Are the values of one kind? -/
inductive SameKind : Value → Value → Prop where
  | null : SameKind null null
  | integer (m n : Int64) : SameKind (integer m) (integer n)
  | real (x y : Float) : SameKind (real x) (real y)
  | text (s t : String) : SameKind (text s) (text t)
  | boolean (a b : Bool) : SameKind (boolean a) (boolean b)

/-- **Values of one kind are the same if their texts are.** -/
theorem SameKind.display_inj {v w : Value} (h : SameKind v w) (heq : v.display = w.display) :
    v = w := by
  cases h with
  | null => rfl
  | integer m n =>
    have hread := congrArg Json.integer? heq
    simp only [display, Json.integer?_toString, Option.some.injEq] at hread
    rw [Int64.toInt_inj.mp hread]
  | real x y => rw [showReal_inj heq]
  | text s t => rw [show s = t from heq]
  | boolean a b =>
    cases a <;> cases b <;> first | rfl | exact absurd heq (by decide)

end Value

/-! ### Texts in a row -/

namespace Trace

/-- Can one see where the text ends if a separator is put behind it?  The text holds no separator,
and no dash is at its end. -/
structure Clear (cs : List Char) : Prop where
  no_separator : ¬keySeparator.toList <:+: cs
  no_dash : cs.getLast? ≠ some '-'

theorem mem_separator {c : Char} (h : c ∈ keySeparator.toList) : c = '-' :=
  List.eq_of_mem_replicate (n := 7) h

/-- What goes on behind another text up to the separator is no clear text. -/
theorem not_clear_of_longer {more x y : List Char} (hne : more ≠ [])
    (h : keySeparator.toList ++ x = more ++ (keySeparator.toList ++ y)) (cs : List Char) :
    ¬Clear (cs ++ more) := by
  intro hclear
  have hmore : more <+: keySeparator.toList ++ x := ⟨_, h.symm⟩
  -- it holds the whole separator, or it is the beginning of one and so it ends in a dash
  rcases List.prefix_or_prefix_of_prefix (List.prefix_append _ x) hmore with hlong | hshort
  · exact hclear.no_separator (hlong.isInfix.trans (List.infix_append_right))
  · have hlast : more.getLast hne = '-' :=
      mem_separator (hshort.subset (List.getLast_mem hne))
    refine hclear.no_dash ?_
    rw [List.getLast?_append, List.getLast?_eq_some_getLast hne, hlast]
    rfl

/-- The first text ends at the first separator. -/
theorem eq_of_separated {cs ds x y : List Char} (hcs : Clear cs) (hds : Clear ds)
    (h : cs ++ (keySeparator.toList ++ x) = ds ++ (keySeparator.toList ++ y)) :
    cs = ds ∧ x = y := by
  rcases List.append_eq_append_iff.mp h with ⟨more, rfl, hrest⟩ | ⟨more, rfl, hrest⟩
  · by_cases hne : more = []
    · subst hne
      exact ⟨(List.append_nil cs).symm, List.append_cancel_left hrest⟩
    · exact absurd hds (not_clear_of_longer hne hrest cs)
  · by_cases hne : more = []
    · subst hne
      exact ⟨List.append_nil ds, (List.append_cancel_left hrest).symm⟩
    · exact absurd hcs (not_clear_of_longer hne hrest ds)

/-- As many texts as before are found again if all but the last are clear. -/
theorem intercalate_inj {ss ts : List (List Char)} (hlen : ss.length = ts.length)
    (hss : ∀ s ∈ ss.dropLast, Clear s) (hts : ∀ t ∈ ts.dropLast, Clear t)
    (h : keySeparator.toList.intercalate ss = keySeparator.toList.intercalate ts) : ss = ts := by
  induction ss generalizing ts with
  | nil => exact (List.length_eq_zero_iff.mp hlen.symm).symm
  | cons s ss ih =>
    obtain ⟨t, ts, rfl⟩ := List.exists_cons_of_length_eq_add_one hlen.symm
    cases ss with
    | nil =>
      obtain rfl : ts = [] := List.length_eq_zero_iff.mp (Nat.succ.inj hlen).symm
      simpa using h
    | cons s' ss =>
      obtain ⟨t', ts, rfl⟩ := List.exists_cons_of_length_eq_add_one (Nat.succ.inj hlen).symm
      rw [List.dropLast_cons_cons, List.forall_mem_cons] at hss hts
      rw [List.intercalate_cons_cons, List.intercalate_cons_cons, List.append_assoc,
        List.append_assoc] at h
      obtain ⟨rfl, hrest⟩ := eq_of_separated hss.1 hts.1 h
      rw [ih (Nat.succ.inj hlen) hss.2 hts.2 hrest]

/-- A number or a word is clear: there is a dash at its beginning at most. -/
theorem clear_signed {ds : List Char} (hne : ds ≠ []) (h : '-' ∉ ds) (negative : Bool) :
    Clear ((if negative then "-" else "").toList ++ ds) := by
  constructor
  · -- a separator has seven dashes
    intro hseparator
    have hcount := hseparator.sublist.count_le '-'
    have hseven : keySeparator.toList.count '-' = 7 := by decide
    have hsign : (if negative then "-" else "").toList.count '-' ≤ 1 := by
      cases negative <;> decide
    rw [hseven, List.count_append, List.count_eq_zero_of_not_mem h] at hcount
    omega
  · rw [List.getLast?_append, List.getLast?_eq_some_getLast hne]
    intro hdash
    exact h (Option.some.inj hdash ▸ List.getLast_mem hne)

theorem clear_showReal (x : Float) : Clear (Value.showReal x).toList := by
  unfold Value.showReal
  cases Double.ofFloat x with
  | nan => exact clear_signed (by decide) (by decide) false
  | infinite negative =>
    cases negative with
    | false => exact clear_signed (by decide) (by decide) false
    | true => exact clear_signed (by decide) (by decide) true
  | finite negative m q =>
    obtain ⟨hne, hdash⟩ := magnitude_unsigned m q
    show Clear ((if negative then "-" else "") ++ Value.realFormat.magnitude m q).toList
    rw [String.toList_append]
    exact clear_signed hne hdash negative

/-- Whatever is no text is clear. -/
theorem clear_display {v : Value} (h : ∀ s, v = .text s → Clear s.toList) :
    Clear v.display.toList := by
  cases v with
  | null => exact clear_signed (by decide) (by decide) false
  | integer n =>
    have hds := digits_toDigits n.toInt.natAbs
    have hdash : '-' ∉ Nat.toDigits 10 n.toInt.natAbs := fun h =>
      absurd (hds.digits _ h) (by decide)
    rcases Json.toList_toString n.toInt with ⟨-, htext⟩ | ⟨-, htext⟩
    · rw [Value.display, htext]
      exact clear_signed hds.nonempty hdash false
    · rw [Value.display, htext]
      exact clear_signed hds.nonempty hdash true
  | real x => exact clear_showReal x
  | text s => exact h s rfl
  | boolean b =>
    cases b with
    | false => exact clear_signed (by decide) (by decide) false
    | true => exact clear_signed (by decide) (by decide) false

/-! ### Rows in one group -/

/-- Are the two rows in one group? -/
def SameGroup (groups : List RowGroup) (i j : Nat) : Prop :=
  ∃ g ∈ groups, i ∈ g.members ∧ j ∈ g.members

/-- Are the texts among the values clear, but for the last value? -/
def Separable (values : List Value) : Prop :=
  ∀ s, .text s ∈ values.dropLast → Clear s.toList

theorem sameGroup_groupsOf {keys : List String} {i j : Nat} {key key' : String}
    (hi : keys[i]? = some key) (hj : keys[j]? = some key') :
    SameGroup (groupsOf keys) i j ↔ key = key' := by
  constructor
  · rintro ⟨g, hg, hmem, hmem'⟩
    obtain ⟨k, -, rfl⟩ := List.mem_map.mp hg
    have hk := mem_members.mp hmem
    have hk' := mem_members.mp hmem'
    rw [hi] at hk
    rw [hj] at hk'
    exact (Option.some.inj hk).trans (Option.some.inj hk').symm
  · rintro rfl
    have hkey : key ∈ keys.eraseDups := List.mem_eraseDups.mpr (List.mem_of_getElem? hi)
    exact ⟨_, List.mem_map_of_mem hkey, mem_members.mpr hi, mem_members.mpr hj⟩

theorem texts_clear {values : List Value} (h : Separable values) :
    ∀ s ∈ ((values.map Value.display).map String.toList).dropLast, Clear s := by
  intro s hs
  rw [List.map_map, ← List.map_dropLast] at hs
  obtain ⟨v, hv, rfl⟩ := List.mem_map.mp hs
  refine clear_display fun s hs => h s ?_
  rwa [← hs]

theorem eq_of_display_eq {values values' : List Value}
    (h : List.Forall₂ Value.SameKind values values')
    (heq : values.map Value.display = values'.map Value.display) : values = values' := by
  induction h with
  | nil => rfl
  | cons hv _ ih =>
    obtain ⟨hhead, htail⟩ := List.cons.inj heq
    rw [hv.display_inj hhead, ih htail]

/-- The values are found again in the key. -/
theorem values_eq_of_key_eq {values values' : List Value}
    (h : List.Forall₂ Value.SameKind values values') (hclear : Separable values)
    (hclear' : Separable values')
    (heq : keySeparator.intercalate (values.map Value.display) =
      keySeparator.intercalate (values'.map Value.display)) : values = values' := by
  refine eq_of_display_eq h ?_
  have hlists := congrArg String.toList heq
  rw [String.toList_intercalate, String.toList_intercalate] at hlists
  have htexts := intercalate_inj (by simpa using h.length_eq) (texts_clear hclear)
    (texts_clear hclear') hlists
  exact List.map_injective_iff.mpr (fun _ _ => String.toList_inj.mp) htexts

/-- **Rows are in one group exactly if the texts of their values, put one behind the other, are
equal.**  So rows with the same values are, and rows with values of the same kinds have the same
values if they are, unless a text hides a separator. -/
theorem partition_together_iff (aliases : List (Aliased Expr)) (exprs : List Expr) (t : Table)
    {groups : List RowGroup} (h : partition aliases exprs t = .ok groups) {i j : Nat}
    {row row' : Row} (hi : t.rows[i]? = some row) (hj : t.rows[j]? = some row') :
    ∃ values values' : List Value,
      exprs.mapM (fun e => Scope.evaluate { columns := t.columns, aliases } e row) = .ok values ∧
      exprs.mapM (fun e => Scope.evaluate { columns := t.columns, aliases } e row') =
        .ok values' ∧
      (SameGroup groups i j ↔ "-------".intercalate (values.map Value.display) =
        "-------".intercalate (values'.map Value.display)) ∧
      (values = values' → SameGroup groups i j) ∧
      (List.Forall₂ Value.SameKind values values' → Separable values → Separable values' →
        (SameGroup groups i j ↔ values = values')) := by
  obtain ⟨keys, hkeys, rfl⟩ := except_map_eq_ok.mp h
  obtain ⟨key, hkey, hplace⟩ := getElem?_of_mapM hkeys hi
  obtain ⟨key', hkey', hplace'⟩ := getElem?_of_mapM hkeys hj
  obtain ⟨values, hvalues, hjoined⟩ := except_bind_eq_ok.mp hkey
  obtain ⟨values', hvalues', hjoined'⟩ := except_bind_eq_ok.mp hkey'
  cases hjoined
  cases hjoined'
  have hiff := sameGroup_groupsOf hplace hplace'
  refine ⟨values, values', hvalues, hvalues', hiff, fun heq => hiff.mpr (by rw [heq]), ?_⟩
  intro hkinds hclear hclear'
  rw [hiff]
  exact ⟨values_eq_of_key_eq hkinds hclear hclear', fun heq => by rw [heq]⟩

/-- Three rows with two values each, which are a number and a text. -/
theorem partition_together_iff_pairs :
    let t : Table := ⟨["a", "b"],
      [[.integer 1, .text "x-y"], [.integer 1, .text "z"], [.integer 1, .text "x-y"]]⟩
    let groups : List RowGroup := [⟨"1-------x-y", [0, 2]⟩, ⟨"1-------z", [1]⟩]
    let values : List Value := [.integer 1, .text "x-y"]
    let values' : List Value := [.integer 1, .text "z"]
    partition [] [.column "a", .column "b"] t = .ok groups ∧ t.rows[0]? = some values ∧
      t.rows[1]? = some values' ∧ List.Forall₂ Value.SameKind values values' ∧
      Separable values ∧ Separable values' ∧ (SameGroup groups 0 1 ↔ values = values') := by
  intro t groups values values'
  have hgroups : partition [] [.column "a", .column "b"] t = .ok groups := by cbv
  have hkinds : List.Forall₂ Value.SameKind values values' :=
    .cons (.integer 1 1) (.cons (.text "x-y" "z") .nil)
  have hclear : Separable values := by simp [Separable, values]
  have hclear' : Separable values' := by simp [Separable, values']
  obtain ⟨_, _, hvalues, hvalues', -, -, hiff⟩ :=
    partition_together_iff [] [.column "a", .column "b"] t hgroups (i := 0) (j := 1) rfl rfl
  cases hvalues
  cases hvalues'
  exact ⟨hgroups, rfl, rfl, hkinds, hclear, hclear', hiff hkinds hclear hclear'⟩

/-- A number and a text are in one group, and so are texts of which one ends in a dash: their keys
are the same, and their values are not. -/
theorem partition_collisions :
    (let t : Table := ⟨["a"], [[.integer 1], [.text "1"]]⟩
     let groups : List RowGroup := [⟨"1", [0, 1]⟩]
     partition [] [.column "a"] t = .ok groups ∧ SameGroup groups 0 1 ∧
       Scope.evaluate { columns := t.columns } (.column "a") [.integer 1] = .ok (.integer 1) ∧
       Scope.evaluate { columns := t.columns } (.column "a") [.text "1"] = .ok (.text "1") ∧
       Value.integer 1 ≠ .text "1") ∧
    (let t : Table := ⟨["a", "b"], [[.text "x-", .text "y"], [.text "x", .text "-y"]]⟩
     let groups : List RowGroup := [⟨"x--------y", [0, 1]⟩]
     partition [] [.column "a", .column "b"] t = .ok groups ∧ SameGroup groups 0 1 ∧
       Scope.evaluate { columns := t.columns } (.column "a") [.text "x-", .text "y"] =
         .ok (.text "x-") ∧
       Scope.evaluate { columns := t.columns } (.column "a") [.text "x", .text "-y"] =
         .ok (.text "x") ∧
       Value.text "x-" ≠ .text "x") := by
  refine ⟨⟨by cbv, ⟨_, List.mem_cons_self, by simp, by simp⟩, by cbv, by cbv, nofun⟩, by cbv,
    ⟨_, List.mem_cons_self, by simp, by simp⟩, by cbv, by cbv, ?_⟩
  rw [ne_eq, Value.text.injEq]
  decide

end Trace

end QueryTrace

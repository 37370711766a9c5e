/-
Names on the rows of a join.

A row of a join is put together from one row of each listed table, and a column of the join carries
the name of its table in front of its own name.  A name that is meant for one table finds the cell
that the row of this table has, whatever other tables and aliases there are.

* `Pick` is a listed table with the row that is picked from it; `joinedColumns` and `joinedRow` are
  the columns and the row of the join;
* **`joinedRow_mem`** — the row is among the rows of `Relational.joined`, which is the table that a
  trace joins;
* **`columnIndex?_qualified`** and **`columnIndex?_bare`** — where in the row a name leads;
* **`evaluate_joined`** — the values of qualified and of bare names.

Design notes: the columns of the join are those of the tables before the one that is meant, its own,
and those of the tables behind it.  The lookup has to find nothing in the first part, and the third
part is never looked at.
-/
import QueryTrace.Proofs.NestedLoops

namespace QueryTrace

/-- A listed table as it is stored, and the row that is picked from it. -/
structure Pick where
  entry : Aliased String
  table : Table
  row : Row
  rectangular : table.Rectangular
  picked : row ∈ table.rows

namespace Pick

variable {picks before after : List Pick} {x y : Pick} {c : String} {i : Nat}

/-- The name that the columns are qualified with. -/
def name (x : Pick) : String :=
  x.entry.displayName

/-- The table with its columns qualified. -/
def source (x : Pick) : Table :=
  x.table.qualified x.name

/-- The cell of the picked row in the column `c`. -/
def cell? (x : Pick) (c : String) : Option Value :=
  (x.table.columns.zip x.row).lookup c

/-- The columns of the join. -/
def joinedColumns (picks : List Pick) : List String :=
  picks.flatMap (·.source.columns)

/-- The picked rows, put next to each other. -/
def joinedRow (picks : List Pick) : Row :=
  picks.flatMap (·.row)

/-- Do no two tables go by one name, have the names of the tables no point in them, and has no table
two columns of one name? -/
structure WellNamed (picks : List Pick) : Prop where
  namesDistinct : (picks.map name).Nodup
  namesPointless : ∀ x ∈ picks, '.' ∉ x.name.toList
  columnsDistinct : ∀ x ∈ picks, x.table.columns.Nodup

/-! ### The row in the joined table -/

theorem row_length (x : Pick) : x.row.length = x.source.columns.length := by
  rw [x.rectangular x.row x.picked]
  simp [source, Table.qualified]

theorem joinedRow_length (picks : List Pick) :
    (joinedRow picks).length = (joinedColumns picks).length := by
  induction picks with
  | nil => rfl
  | cons x picks ih =>
    show (x.row ++ joinedRow picks).length = (x.source.columns ++ joinedColumns picks).length
    rw [List.length_append, List.length_append, ih, row_length]

theorem joined_columns (picks : List Pick) :
    (Relational.joined (picks.map source)).columns = joinedColumns picks := by
  simp [Relational.joined, joinedColumns, List.flatMap_map]

theorem joinedRow_mem (picks : List Pick) :
    joinedRow picks ∈ (Relational.joined (picks.map source)).rows := by
  induction picks with
  | nil => simp [joinedRow, Relational.joined, Relational.product]
  | cons x picks ih =>
    refine List.mem_flatMap.mpr ⟨x.row, x.picked, ?_⟩
    exact List.mem_map.mpr ⟨joinedRow picks, ih, rfl⟩

/-- The cells of a table stand in the row where its columns stand in the list of columns. -/
theorem joinedRow_getElem? (hi : i < x.source.columns.length) :
    (joinedRow (before ++ x :: after))[(joinedColumns before).length + i]? = x.row[i]? := by
  have happ : joinedRow (before ++ x :: after) =
      joinedRow before ++ (x.row ++ joinedRow after) := by
    simp [joinedRow]
  rw [← row_length] at hi
  rw [happ, ← joinedRow_length, List.getElem?_append_right (by omega), Nat.add_sub_cancel_left,
    List.getElem?_append_left hi]

/-! ### Names and their points -/

/-- A name without points ends where the first point stands. -/
theorem append_point_inj {a b : List Char} {s t : List Char} (ha : '.' ∉ a) (hb : '.' ∉ b) :
    a ++ '.' :: s = b ++ '.' :: t ↔ a = b ∧ s = t := by
  induction a generalizing b with
  | nil =>
    cases b with
    | nil => simp
    | cons d b => simp_all
  | cons d a ih =>
    cases b with
    | nil =>
      have hd : d ≠ '.' := fun h => ha (by simp [h])
      simp [hd]
    | cons e b =>
      have ih := ih (b := b) (by simp_all) (by simp_all)
      simp only [List.cons_append, List.cons.injEq, ih]
      exact and_assoc.symm

theorem toList_qualify (d c : String) : (d ++ "." ++ c).toList = d.toList ++ '.' :: c.toList := by
  simp

theorem qualify_inj {d e c b : String} (hd : '.' ∉ d.toList) (he : '.' ∉ e.toList) :
    d ++ "." ++ c = e ++ "." ++ b ↔ d = e ∧ c = b := by
  rw [← String.toList_inj, toList_qualify, toList_qualify, append_point_inj hd he,
    String.toList_inj, String.toList_inj]

theorem suffix?_qualify {d : String} (c : String) (hd : '.' ∉ d.toList) :
    suffix? (d ++ "." ++ c) = some c := by
  have hne : ∀ a ∈ d.toList, (a != '.') = true := by
    intro a ha
    rw [bne_iff_ne]
    rintro rfl
    exact hd ha
  rw [suffix?, toList_qualify, List.dropWhile_append_of_pos hne, List.dropWhile_cons,
    if_neg (by decide)]
  exact congrArg some String.ofList_toList

/-! ### Where a name leads -/

theorem mem_joinedColumns {n : String} :
    n ∈ joinedColumns picks ↔ ∃ x ∈ picks, ∃ c ∈ x.table.columns, n = x.name ++ "." ++ c := by
  simp only [joinedColumns, source, Table.qualified, List.mem_flatMap, List.mem_map]
  constructor
  · rintro ⟨x, hx, c, hc, rfl⟩
    exact ⟨x, hx, c, hc, rfl⟩
  · rintro ⟨x, hx, c, hc, rfl⟩
    exact ⟨x, hx, c, hc, rfl⟩

/-- What is found in no table before `x` and at place `i` in `x` is found behind the columns of the
tables before `x`. -/
theorem findIdx?_joinedColumns {p : String → Bool}
    (hb : ∀ y ∈ before, ∀ c ∈ y.table.columns, p (y.name ++ "." ++ c) = false)
    (hx : x.table.columns.findIdx? (fun c => p (x.name ++ "." ++ c)) = some i) :
    (joinedColumns (before ++ x :: after)).findIdx? p =
      some ((joinedColumns before).length + i) := by
  have happ : joinedColumns (before ++ x :: after) =
      joinedColumns before ++ (x.source.columns ++ joinedColumns after) := by
    simp [joinedColumns]
  have hnone : (joinedColumns before).findIdx? p = none := by
    rw [List.findIdx?_eq_none_iff]
    intro n hn
    obtain ⟨y, hy, c, hc, rfl⟩ := mem_joinedColumns.mp hn
    exact hb y hy c hc
  have hsome : x.source.columns.findIdx? p = some i := by
    rw [source, Table.qualified, List.findIdx?_map]
    exact hx
  rw [happ, List.findIdx?_append, List.findIdx?_append, hnone, hsome]
  simp [Nat.add_comm]

theorem findIdx?_of_mem {columns : List String} (hc : c ∈ columns) :
    columns.findIdx? (· == c) = some (columns.idxOf c) := by
  rw [List.findIdx?_eq_some_iff_findIdx_eq]
  exact ⟨List.idxOf_lt_length_of_mem hc, rfl⟩

/-- A qualified name leads into the one table that goes by its first part. -/
theorem columnIndex?_qualified (h : WellNamed (before ++ x :: after)) (hc : c ∈ x.table.columns) :
    columnIndex? (joinedColumns (before ++ x :: after)) (x.name ++ "." ++ c) =
      some ((joinedColumns before).length + x.table.columns.idxOf c) := by
  have hxp : '.' ∉ x.name.toList := h.namesPointless x (by simp)
  have hfind : (joinedColumns (before ++ x :: after)).findIdx? (· == x.name ++ "." ++ c) =
      some ((joinedColumns before).length + x.table.columns.idxOf c) := by
    refine findIdx?_joinedColumns (fun y hy b _ => ?_) ?_
    · have hyp : '.' ∉ y.name.toList := h.namesPointless y (by simp [hy])
      have hne : y.name ≠ x.name := by
        have hd := h.namesDistinct
        rw [List.map_append, List.nodup_append] at hd
        exact hd.2.2 y.name (List.mem_map_of_mem hy) x.name (by simp)
      rw [beq_eq_false_iff_ne]
      exact fun he => hne ((qualify_inj hyp hxp).mp he).1
    · rw [← findIdx?_of_mem hc]
      congr 1
      funext b
      rw [Bool.eq_iff_iff, beq_iff_eq, beq_iff_eq, qualify_inj hxp hxp]
      simp
  rw [columnIndex?, hfind]
  rfl

/-- A name without a point leads into the first table that has a column of that name. -/
theorem columnIndex?_bare (h : WellNamed (before ++ x :: after))
    (hb : ∀ y ∈ before, c ∉ y.table.columns) (hc : c ∈ x.table.columns) (hp : '.' ∉ c.toList) :
    columnIndex? (joinedColumns (before ++ x :: after)) c =
      some ((joinedColumns before).length + x.table.columns.idxOf c) := by
  -- every column of the join has a point in its name, so none is meant as a whole
  have hwhole : (joinedColumns (before ++ x :: after)).findIdx? (· == c) = none := by
    rw [List.findIdx?_eq_none_iff]
    intro n hn
    obtain ⟨y, -, b, -, rfl⟩ := mem_joinedColumns.mp hn
    rw [beq_eq_false_iff_ne]
    rintro rfl
    exact hp (by simp)
  have hsuffix : ∀ y ∈ before ++ x :: after, ∀ b : String,
      (suffix? (y.name ++ "." ++ b) == some c) = (b == c) := by
    intro y hy b
    rw [suffix?_qualify b (h.namesPointless y hy)]
    rfl
  have hfind : (joinedColumns (before ++ x :: after)).findIdx? (fun n => suffix? n == some c) =
      some ((joinedColumns before).length + x.table.columns.idxOf c) := by
    refine findIdx?_joinedColumns (fun y hy b hbc => ?_) ?_
    · rw [hsuffix y (by simp [hy]), beq_eq_false_iff_ne]
      rintro rfl
      exact hb y hy hbc
    · rw [← findIdx?_of_mem hc]
      congr 1
      funext b
      exact hsuffix x (by simp) b
  rw [columnIndex?, hwhole, hfind]
  rfl

/-! ### Values -/

theorem lookup_zip {columns : List String} {row : Row} (hl : row.length = columns.length)
    (hc : c ∈ columns) : ∃ v, (columns.zip row).lookup c = some v ∧
      row[columns.idxOf c]? = some v := by
  induction columns generalizing row with
  | nil => simp at hc
  | cons b columns ih =>
    cases row with
    | nil => simp at hl
    | cons v row =>
      by_cases hbc : b = c
      · exact ⟨v, by simp [hbc], by simp [hbc]⟩
      · have hcb : (c == b) = false := by simpa using Ne.symm hbc
        obtain ⟨w, hw, hi⟩ := ih (by simpa using hl) (by simpa [Ne.symm hbc] using hc)
        refine ⟨w, by simpa [List.lookup_cons, hcb] using hw, ?_⟩
        rw [List.idxOf_cons, beq_eq_false_iff_ne.mpr hbc]
        exact hi

/-- The place of a column in the row holds the cell of the column. -/
theorem cell_joinedRow (before after : List Pick) (hc : c ∈ x.table.columns) (target : String) :
    ∃ v, x.cell? c = some v ∧ Scope.cell target (joinedRow (before ++ x :: after))
      ((joinedColumns before).length + x.table.columns.idxOf c) = .ok v := by
  have hi := List.idxOf_lt_length_of_mem hc
  have hs : x.table.columns.idxOf c < x.source.columns.length := by
    simpa [source, Table.qualified] using hi
  obtain ⟨v, hv, hrow⟩ := lookup_zip (x.rectangular x.row x.picked) hc
  exact ⟨v, hv, by rw [Scope.cell, joinedRow_getElem? hs, hrow]⟩

/-- **Names on the rows of a join.**  A qualified name has the value of the cell that the picked row
of its table has, and a bare name that of the first table with such a column.  Neither the aliases
of the query nor a group take part. -/
theorem evaluate_joined {picks : List Pick} (h : WellNamed picks) (aliases : List (Aliased Expr))
    (group : Option (List Row)) :
    (∀ (s : Setting) (p q : Progress) (t : Table) (steps : List Step),
      Trace.join s (picks.map source) p = (.ok (t, steps), q) →
        t.columns = joinedColumns picks ∧ joinedRow picks ∈ t.rows) ∧
    (∀ x ∈ picks, ∀ c ∈ x.table.columns, ∃ v, x.cell? c = some v ∧
      Scope.evaluate { columns := joinedColumns picks, aliases, group } (.qualified x.name c)
        (joinedRow picks) = .ok v) ∧
    (∀ c : String, '.' ∉ c.toList →
      ∀ x, picks.find? (fun x => x.table.columns.contains c) = some x →
      ∃ v, x.cell? c = some v ∧
        Scope.evaluate { columns := joinedColumns picks, aliases, group } (.column c)
          (joinedRow picks) = .ok v) := by
  refine ⟨fun s p q t steps hj => ?_, fun x hx c hc => ?_, fun c hp x hx => ?_⟩
  · have ht := Trace.ensures_join_eq s (picks.map source) p (t, steps) q hj
    dsimp only at ht
    subst ht
    exact ⟨joined_columns picks, joinedRow_mem picks⟩
  · obtain ⟨before, after, rfl⟩ := List.append_of_mem hx
    obtain ⟨v, hv, hcell⟩ := cell_joinedRow before after hc (x.name ++ "." ++ c)
    refine ⟨v, hv, ?_⟩
    show Scope.resolve _ _ (x.name ++ "." ++ c) _ = _
    rw [Scope.resolve_of_columnIndex? (columnIndex?_qualified h hc), hcell]
  · obtain ⟨hc, before, after, rfl, hb⟩ := List.find?_eq_some_iff_append.mp hx
    have hc : c ∈ x.table.columns := by simpa using hc
    have hb : ∀ y ∈ before, c ∉ y.table.columns := fun y hy => by simpa using hb y hy
    obtain ⟨v, hv, hcell⟩ := cell_joinedRow before after hc c
    refine ⟨v, hv, ?_⟩
    show Scope.resolve _ _ c _ = _
    rw [Scope.resolve_of_columnIndex? (columnIndex?_bare h hb hc hp), hcell]

/-- A dog, in a table with a point in the name of a column. -/
def rex : Pick where
  entry := ⟨"dogs", some "d"⟩
  table := ⟨["name", "owner.age"], [[.text "fido", .text "two"], [.text "rex", .text "three"]]⟩
  row := [.text "rex", .text "three"]
  rectangular := by simp [Table.Rectangular]
  picked := by simp

/-- An owner, in a table that has a column of the same name. -/
def ann : Pick where
  entry := ⟨"owners", none⟩
  table := ⟨["age", "name"], [[.text "forty", .text "ann"]]⟩
  row := [.text "forty", .text "ann"]
  rectangular := by simp [Table.Rectangular]
  picked := by simp

/-- The names on the joined row, when the query declares an alias that is the name of a column. -/
def dogScope : Scope where
  columns := joinedColumns [rex, ann]
  aliases := [⟨.text "alias", some "name"⟩]

theorem evaluate_rex_ann : WellNamed [rex, ann] ∧
    dogScope.evaluate (.qualified "owners" "name") (joinedRow [rex, ann]) = .ok (.text "ann") ∧
    dogScope.evaluate (.qualified "d" "owner.age") (joinedRow [rex, ann]) = .ok (.text "three") ∧
    dogScope.evaluate (.column "name") (joinedRow [rex, ann]) = .ok (.text "rex") ∧
    dogScope.evaluate (.column "age") (joinedRow [rex, ann]) = .ok (.text "forty") := by
  have h : WellNamed [rex, ann] := ⟨by decide, by decide, by decide⟩
  obtain ⟨-, hq, hb⟩ := evaluate_joined h dogScope.aliases none
  refine ⟨h, ?_, ?_, ?_, ?_⟩
  · obtain ⟨v, hv, he⟩ := hq ann (by simp) "name" (by decide)
    cases hv
    exact he
  · obtain ⟨v, hv, he⟩ := hq rex (by simp) "owner.age" (by decide)
    cases hv
    exact he
  · obtain ⟨v, hv, he⟩ := hb "name" (by decide) rex rfl
    cases hv
    exact he
  · obtain ⟨v, hv, he⟩ := hb "age" (by decide) ann rfl
    cases hv
    exact he

end Pick

end QueryTrace

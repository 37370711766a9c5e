/-
Nothing is lost in Json.

Values, labels, tables, groups and the steps of a trace each have a form in Json.  What is written
in such a form, on one line or on many, is read as what it was, up to the kind of every value: the
text of an integer is read as an integer, and that of a real, which has a point or an exponent, as
a real.

* `Form.value`, `Form.label`, `Form.table`, `Form.group`, `Form.step` — the forms, and
  `lawful_value` and so on for each of them;
* `ofJson?_realToJson` — a real is read back just when it is finite and regained;
* **`lossless_models`** — texts of all these forms are read back.

Design notes: a table is read as it stands, so tables whose rows differ in length are read back as
well.
-/
import QueryTrace.Proofs.Forms

namespace QueryTrace

/-! ### Values -/

theorem ofInt?_toInt (n : Int64) : Value.ofInt? n.toInt = some (.integer n) := by
  rw [Value.ofInt?, if_pos ⟨n.minValue_le_toInt, n.toInt_le⟩, Int64.ofInt_toInt]

/-- The text of a finite real is no integer, so that it is read as a real. -/
theorem ofNumber?_finite (negative : Bool) (m : Nat) (q : Int) :
    Value.ofNumber? (Value.jsonFormat.finite negative m q) =
      (Json.real? (Value.jsonFormat.finite negative m q)).map .real := by
  rw [Value.ofNumber?, (Json.number_finite negative m q).2]
  rfl

theorem writable_realToJson (x : Float) : (Value.realToJson x).Writable := by
  rw [Value.realToJson]
  split
  · exact .number (Json.number_finite _ _ _).1
  · exact .null

/-- A real is read back just when it is finite and regained. -/
theorem ofJson?_realToJson (x : Float) :
    Value.ofJson? (Value.realToJson x) = some (.real x) ↔ x.isFinite = true ∧ Regained x := by
  rw [Value.realToJson, Decimal.isFinite_iff_finite]
  split
  · next negative m q hx =>
    rw [Value.ofJson?, ofNumber?_finite, regained_iff hx, Option.map_eq_some_iff]
    constructor
    · rintro ⟨y, hy, heq⟩
      cases heq
      exact ⟨⟨negative, m, q, hx⟩, hy⟩
    · rintro ⟨-, hregained⟩
      exact ⟨x, hregained, rfl⟩
  · next hx =>
    -- what is not finite becomes null
    refine ⟨nofun, fun ⟨⟨negative, m, q, hfinite⟩, _⟩ => ?_⟩
    exact absurd hfinite (hx negative m q)

/-- The reals in a value. -/
def Value.reals : Value → List Float
  | real x => [x]
  | _ => []

/-- A real that is read is finite. -/
theorem isFinite_of_ofNumber? {raw : String} {v : Value} (h : Value.ofNumber? raw = some v) :
    ∀ r ∈ v.reals, r.isFinite = true := by
  rcases Option.or_eq_some_iff.mp h with h | ⟨-, h⟩
  · obtain ⟨n, -, hn⟩ := Option.bind_eq_some_iff.mp h
    obtain ⟨-, heq⟩ := Option.ite_none_right_eq_some.mp hn
    cases heq
    exact nofun
  · obtain ⟨x, hx, rfl⟩ := Option.map_eq_some_iff.mp h
    intro r hr
    rw [List.mem_singleton.mp hr]
    exact Json.isFinite_of_real? hx

namespace Form

/-- A value of a cell. -/
def value : Form Value where
  toJson := Value.toJson
  ofJson? := Value.ofJson?
  Fits _ := True
  reals := Value.reals

theorem lawful_value : value.Lawful where
  writable v := by
    cases v with
    | null => exact .null
    | integer n => exact .number (Json.isNumber_toString n.toInt)
    | real x => exact writable_realToJson x
    | text s => exact .text s
    | boolean b => exact .bool b
  reads_iff v := by
    cases v with
    | null => exact ⟨fun _ => ⟨trivial, nofun⟩, fun _ => rfl⟩
    | integer n =>
      refine ⟨fun _ => ⟨trivial, nofun⟩, fun _ => ?_⟩
      show Value.ofNumber? (toString n.toInt) = _
      rw [Value.ofNumber?, Json.integer?_toString, Option.bind_some, ofInt?_toInt]
      rfl
    | real x =>
      refine (ofJson?_realToJson x).trans ⟨fun h => ⟨trivial, fun r hr => ?_⟩, fun h => ?_⟩
      · rw [List.mem_singleton.mp hr]
        exact h
      · exact h.2 x (List.mem_singleton_self x)
    | text s => exact ⟨fun _ => ⟨trivial, nofun⟩, fun _ => rfl⟩
    | boolean b => exact ⟨fun _ => ⟨trivial, nofun⟩, fun _ => rfl⟩
  finite j v h := by
    refine ⟨trivial, ?_⟩
    cases j with
    | number raw => exact isFinite_of_ofNumber? h
    | null =>
      cases h
      exact nofun
    | bool b =>
      cases h
      exact nofun
    | string s =>
      obtain ⟨s, -, rfl⟩ := Option.map_eq_some_iff.mp h
      exact nofun
    | array items => cases h
    | object members => cases h

/-! ### Labels -/

/-- Do the indices in a label fit? -/
def labelFits : Label → Prop
  | .group id => id < UInt64.size
  | .source index => index < UInt64.size
  | _ => True

/-- What is said of a row or a table. -/
def label : Form Label where
  toJson := Label.toJson
  ofJson? := Label.ofJson?
  Fits := labelFits
  reals _ := []

theorem map_natural?_eq_some_iff (mk : Nat → Label) (n : Nat) :
    (Json.natural? (Json.natural n)).map mk = some (mk n) ↔ n < UInt64.size := by
  rw [natural?_natural]
  constructor
  · intro h
    obtain ⟨m, hm, -⟩ := Option.map_eq_some_iff.mp h
    exact (Option.ite_none_right_eq_some.mp hm).1
  · intro h
    rw [if_pos h]
    rfl

theorem lawful_label : label.Lawful where
  writable l := by
    have hindex : ∀ name n, (Json.record [(name, Json.natural n)]).Writable := by
      intro name n
      refine writable_record fun m hm => ?_
      rw [List.mem_singleton.mp hm]
      exact lawful_natural.writable n
    cases l with
    | kept => exact .text "kept"
    | rejected => exact .text "rejected"
    | group id => exact hindex "group" id
    | source index => exact hindex "source" index
  reads_iff l := by
    cases l with
    | kept => exact ⟨fun _ => ⟨trivial, nofun⟩, fun _ => Label.ofJson?_toJson_kept⟩
    | rejected => exact ⟨fun _ => ⟨trivial, nofun⟩, fun _ => Label.ofJson?_toJson_rejected⟩
    | group id =>
      exact (map_natural?_eq_some_iff .group id).trans ⟨fun h => ⟨h, nofun⟩, fun h => h.1⟩
    | source index =>
      exact (map_natural?_eq_some_iff .source index).trans ⟨fun h => ⟨h, nofun⟩, fun h => h.1⟩
  finite j l h := by
    refine ⟨?_, nofun⟩
    change Label.ofJson? j = some l at h
    unfold Label.ofJson? at h
    split at h
    · obtain ⟨n, hn, rfl⟩ := Option.map_eq_some_iff.mp h
      exact lt_of_natural? hn
    · obtain ⟨n, hn, rfl⟩ := Option.map_eq_some_iff.mp h
      exact lt_of_natural? hn
    · split at h
      · cases h
        trivial
      · cases h
        trivial
      · cases h

/-! ### Tables and groups -/

/-- A table. -/
def table : Form Table where
  toJson := Table.toJson
  ofJson? := Table.ofJson?
  Fits _ := True
  reals t := t.rows.flatMap fun row => row.flatMap Value.reals

/-- A group of rows. -/
def group : Form RowGroup where
  toJson := RowGroup.toJson
  ofJson? := RowGroup.ofJson?
  Fits g := ∀ i ∈ g.members, i < UInt64.size
  reals _ := []

theorem table_ofJson? (j : Json) :
    Table.ofJson? j =
      ((both "columns" "rows" (list text) (list (list value))).ofJson? j).map
        fun x => ⟨x.1, x.2⟩ := by
  rw [map_both_ofJson?, Table.ofJson?]
  refine congrArg (Option.bind _) (funext fun fields => ?_)
  match fields with
  | [some _, some _] =>
    simp only [list, text, value, Option.bind_eq_bind, Option.bind_assoc, Option.pure_def]
  | [] | none :: _ | [some _] | some _ :: none :: _ | some _ :: some _ :: _ :: _ => rfl

theorem group_ofJson? (j : Json) : RowGroup.ofJson? j =
    ((both "key" "members" text (list natural)).ofJson? j).map fun x => ⟨x.1, x.2⟩ := by
  rw [map_both_ofJson?, RowGroup.ofJson?]
  refine congrArg (Option.bind _) (funext fun fields => ?_)
  match fields with
  | [some _, some _] =>
    simp only [list, text, natural, Option.bind_eq_bind, Option.bind_assoc, Option.pure_def]
  | [] | none :: _ | [some _] | some _ :: none :: _ | some _ :: some _ :: _ :: _ => rfl

theorem lawful_table : table.Lawful := by
  have hcells := lawful_both (a := "columns") (b := "rows") (by decide) (lawful_list lawful_text)
    (lawful_list (lawful_list lawful_value))
  refine hcells.of_equiv (fun t : Table => (t.columns, t.rows)) (fun x => ⟨x.1, x.2⟩)
    (fun _ => rfl) (fun _ => rfl) (fun _ => rfl) table_ofJson? fun P t => ?_
  rw [holds_both]
  simp [Holds, table, list, text, value]

theorem lawful_group : group.Lawful := by
  have hfields := lawful_both (a := "key") (b := "members") (by decide) lawful_text
    (lawful_list lawful_natural)
  refine hfields.of_equiv (fun g : RowGroup => (g.key, g.members)) (fun x => ⟨x.1, x.2⟩)
    (fun _ => rfl) (fun _ => rfl) (fun _ => rfl) group_ofJson? fun P g => ?_
  rw [holds_both]
  simp [Holds, group, list, text, natural]

/-! ### Steps -/

/-- The kind of a step. -/
def kind : Form StepKind where
  toJson k := .text k.name
  ofJson? j := j.word?.bind StepKind.ofName?
  Fits _ := True
  reals _ := []

theorem lawful_kind : kind.Lawful where
  writable k := .text k.name
  reads_iff k := ⟨fun _ => ⟨trivial, nofun⟩, fun _ => StepKind.ofName?_name k⟩
  finite _ _ _ := ⟨trivial, nofun⟩

/-- A table with labels. -/
def annotated : Form Annotated where
  toJson := Annotated.toJson
  ofJson? := Annotated.ofJson?
  Fits t := (∀ l ∈ t.label, labelFits l) ∧ ∀ ls ∈ t.rowLabels, ∀ l ∈ ls, labelFits l
  reals t := table.reals t.table

/-- A step of a trace. -/
def step : Form Step where
  toJson := Step.toJson
  ofJson? := Step.ofJson?
  Fits s := ∀ t ∈ s.tables, annotated.Fits t
  reals s := s.tables.flatMap annotated.reals

theorem lawful_tableLabel : (nullable label).Lawful :=
  lawful_nullable lawful_label fun l => by cases l <;> exact nofun

theorem lawful_rowLabels : (nullable (list label)).Lawful :=
  lawful_nullable (lawful_list lawful_label) fun _ => nofun

theorem holds_annotated {P : Float → Prop} {t : Annotated} :
    annotated.Holds P t ↔ table.Holds P t.table ∧ (nullable label).Holds P t.label ∧
      (nullable (list label)).Holds P t.rowLabels := by
  have hown : (nullable label).Holds P t.label ↔ ∀ l ∈ t.label, labelFits l := by
    simp [Holds, nullable, label]
  have hrows : (nullable (list label)).Holds P t.rowLabels ↔
      ∀ ls ∈ t.rowLabels, ∀ l ∈ ls, labelFits l := by
    simp [Holds, nullable, list, label]
  rw [hown, hrows]
  exact ⟨fun h => ⟨⟨trivial, h.2⟩, h.1⟩, fun h => ⟨h.2, h.1.2⟩⟩

theorem annotated_ofJson?_eq_some_iff {j : Json} {t : Annotated} :
    Annotated.ofJson? j = some t ↔ ∃ k l m,
      j.fields? false ["snapshot", "table_label", "row_labels"] = some [some k, l, m] ∧
      Table.ofJson? k = some t.table ∧ Json.nullable? Label.ofJson? l = some t.label ∧
      Json.nullable? (list label).ofJson? m = some t.rowLabels := by
  simp only [Annotated.ofJson?, Option.bind_eq_bind, Option.bind_eq_some_iff]
  constructor
  · rintro ⟨fields, hfields, h⟩
    split at h
    · next k l m =>
      obtain ⟨u, hk, h⟩ := Option.bind_eq_some_iff.mp h
      obtain ⟨own, hl, h⟩ := Option.bind_eq_some_iff.mp h
      obtain ⟨rows, hm, h⟩ := Option.bind_eq_some_iff.mp h
      cases h
      exact ⟨k, l, m, hfields, hk, hl, hm⟩
    · cases h
  · rintro ⟨k, l, m, hfields, hk, hl, hm⟩
    refine ⟨_, hfields, ?_⟩
    change Json.nullable? Annotated.readRowLabels? m = _ at hm
    simp only [hk, hl, hm, Option.bind_some, Option.pure_def]

-- three fields, two of which may be missing in what is read but not in what is written
theorem lawful_annotated : annotated.Lawful where
  writable t := by
    refine writable_record ?_
    simp only [List.forall_mem_cons]
    exact ⟨lawful_table.writable t.table, lawful_tableLabel.writable t.label,
      lawful_rowLabels.writable t.rowLabels, nofun⟩
  reads_iff t := by
    have hfields : (Annotated.toJson t).fields? false ["snapshot", "table_label", "row_labels"] =
        some [some (table.toJson t.table), some ((nullable label).toJson t.label),
          some ((nullable (list label)).toJson t.rowLabels)] :=
      @fields?_record false [("snapshot", _), ("table_label", _), ("row_labels", _)] (by simp)
    rw [holds_annotated, ← lawful_table.reads_iff, ← lawful_tableLabel.reads_iff,
      ← lawful_rowLabels.reads_iff]
    refine annotated_ofJson?_eq_some_iff.trans ?_
    show (∃ k l m, (Annotated.toJson t).fields? _ _ = _ ∧ _) ↔ _
    rw [hfields]
    constructor
    · rintro ⟨k, l, m, h, hk, hl, hm⟩
      cases h
      exact ⟨hk, hl, hm⟩
    · rintro ⟨hk, hl, hm⟩
      exact ⟨_, _, _, rfl, hk, hl, hm⟩
  finite j t h := by
    obtain ⟨k, l, m, -, hk, hl, hm⟩ := annotated_ofJson?_eq_some_iff.mp h
    exact holds_annotated.mpr ⟨lawful_table.finite k _ hk, holds_of_nullable? lawful_label hl,
      holds_of_nullable? (lawful_list lawful_label) hm⟩

theorem step_ofJson? (j : Json) : Step.ofJson? j =
    ((both "kind" "tables" kind (list annotated)).ofJson? j).map fun x => ⟨x.1, x.2⟩ := by
  rw [map_both_ofJson?, Step.ofJson?]
  refine congrArg (Option.bind _) (funext fun fields => ?_)
  match fields with
  | [some _, some _] =>
    simp only [list, kind, annotated, Option.bind_eq_bind, Option.bind_assoc, Option.pure_def]
  | [] | none :: _ | [some _] | some _ :: none :: _ | some _ :: some _ :: _ :: _ => rfl

theorem lawful_step : step.Lawful := by
  have hfields := lawful_both (a := "kind") (b := "tables") (by decide) lawful_kind
    (lawful_list lawful_annotated)
  refine hfields.of_equiv (fun s : Step => (s.kind, s.tables)) (fun x => ⟨x.1, x.2⟩)
    (fun _ => rfl) (fun _ => rfl) (fun _ => rfl) step_ofJson? fun P s => ?_
  rw [holds_both]
  simp [Holds, step, list, kind]

end Form

/-- Values, labels, tables, groups, steps and lists of steps are read as they were written. -/
theorem lossless_models : Form.value.Lossless ∧ Form.label.Lossless ∧ Form.table.Lossless ∧
    Form.group.Lossless ∧ Form.step.Lossless ∧ (Form.list Form.step).Lossless :=
  ⟨Form.lawful_value.isLossless, Form.lawful_label.isLossless, Form.lawful_table.isLossless,
    Form.lawful_group.isLossless, Form.lawful_step.isLossless,
    (Form.lawful_list Form.lawful_step).isLossless⟩

/-- A step that shows a table of values of all kinds, with a label of its own and labels of its
rows. -/
def Step.mixed : Step where
  kind := .groupMarked
  tables := [{
    table := ⟨["t.name", "t.price"],
      [[.text "5\" disk\n", .real 0.1], [.null, .integer 3], [.boolean true, .real (-0.0)]]⟩
    label := some (.source 7)
    rowLabels := some [.group 0, .kept, .group 1] }]

/-- It is read back from both of its texts. -/
theorem lossless_models_mixed :
    (∀ layout ∈ [Json.compact, Json.pretty],
      Form.step.decode? (Form.step.encode layout .mixed) = some .mixed) ∧
    Form.step.encode Json.compact .mixed =
      "\x7b\"kind\":\"group_marked\",\"tables\":[\x7b\"snapshot\":\x7b" ++
        "\"columns\":[\"t.name\",\"t.price\"]," ++
        "\"rows\":[[\"5\\\" disk\\n\",0.1],[null,3],[true,-0.0]]\x7d," ++
        "\"table_label\":\x7b\"source\":7\x7d," ++
        "\"row_labels\":[\x7b\"group\":0\x7d,\"kept\",\x7b\"group\":1\x7d]\x7d]\x7d" := by
  obtain ⟨-, -, -, -, hstep, -⟩ := lossless_models
  refine ⟨fun layout hlayout => (hstep.decode_encode .mixed layout hlayout).mpr ⟨?_, ?_⟩, ?_⟩
  · intro t ht
    rw [List.mem_singleton.mp ht]
    simp [Form.annotated, Form.labelFits, UInt64.size]
  · show ∀ r ∈ [0.1, -0.0], r.isFinite = true ∧ Regained r
    decide +kernel
  · decide +kernel

end QueryTrace


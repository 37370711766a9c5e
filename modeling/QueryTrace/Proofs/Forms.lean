/-
Forms in Json.

A form says how the values of a type are written and read.  Larger forms are made of smaller ones,
for lists, for values that may be missing and for records, and a larger form keeps what its parts
keep.

* `Form.encode` and `Form.decode?` — the text of a value and the value in a text;
* `Form.Lawful` — what is asked of a form: `lawful_text`, `lawful_natural`, `lawful_list`,
  `lawful_nullable` and `lawful_both`;
* **`Lawful.isLossless`** — the texts of a lawful form are read back.

Design notes: an index that does not fit in 64 bits is not read, and a real that is not finite is
written as null, but neither of them comes out of a text.  Any other real has digits, and numbers
are read by scaling, which is not always exact: the double that is nearest to `2e-50` is read as the
one next to it.  So what is read back of a real is said one by one, by `Regained`.
-/
import QueryTrace.Proofs.FiniteReals
import QueryTrace.Proofs.JsonText
import QueryTrace.Proofs.NumberTexts

namespace QueryTrace

/-- Is the text of the real, if it is finite, read as the real? -/
def Regained (x : Float) : Prop :=
  ∀ negative m q, Decimal.Double.ofFloat x = .finite negative m q →
    Json.real? (Value.jsonFormat.finite negative m q) = some x

theorem regained_iff {x : Float} {negative : Bool} {m : Nat} {q : Int}
    (h : Decimal.Double.ofFloat x = .finite negative m q) :
    Regained x ↔ Json.real? (Value.jsonFormat.finite negative m q) = some x := by
  refine ⟨fun hx => hx negative m q h, fun hx _ _ _ h' => ?_⟩
  rw [h] at h'
  cases h'
  exact hx

theorem regained_of_not_finite {x : Float}
    (h : ∀ negative m q, Decimal.Double.ofFloat x ≠ .finite negative m q) : Regained x :=
  fun negative m q hx => absurd hx (h negative m q)

instance (x : Float) : Decidable (Regained x) :=
  match h : Decimal.Double.ofFloat x with
  | .finite _ _ _ => decidable_of_iff _ (regained_iff h).symm
  | .infinite _ => .isTrue (regained_of_not_finite fun _ _ _ h' => by rw [h] at h'; cases h')
  | .nan => .isTrue (regained_of_not_finite fun _ _ _ h' => by rw [h] at h'; cases h')

example : Regained 0.1 ∧ Regained (-0.0) ∧ ¬ Regained 2e-50 := by
  decide +kernel

/-- How the values of a type are written and read. -/
structure Form (α : Type) where
  toJson : α → Json
  ofJson? : Json → Option α
  /-- Do all indices in the value fit in 64 bits? -/
  Fits : α → Prop
  /-- The reals in the value. -/
  reals : α → List Float

namespace Form

/-- The text of a value. -/
def encode {α : Type} (f : Form α) (layout : Json.Layout) (x : α) : String :=
  Json.print layout (f.toJson x)

/-- The value in a text. -/
def decode? {α : Type} (f : Form α) (text : String) : Option α :=
  (Json.parse? text).bind f.ofJson?

/-- Do the indices in the value fit, and have its reals a property? -/
def Holds {α : Type} (f : Form α) (P : Float → Prop) (x : α) : Prop :=
  f.Fits x ∧ ∀ r ∈ f.reals x, P r

/-- Is a value read back from each of its texts, unless one of its indices does not fit or one of
its reals is not finite or not regained, and is what was read from any text written and read again
without loss? -/
structure Lossless {α : Type} (f : Form α) : Prop where
  decode_encode : ∀ x, ∀ layout ∈ [Json.compact, Json.pretty],
    f.decode? (f.encode layout x) = some x ↔
      f.Fits x ∧ ∀ r ∈ f.reals x, r.isFinite = true ∧ Regained r
  encode_decode : ∀ text x, f.decode? text = some x → (∀ r ∈ f.reals x, Regained r) →
    f.decode? (f.encode Json.compact x) = some x

/-- The values of the form have texts; they are read back unless an index does not fit or a real is
lost; and neither happens to what was read. -/
structure Lawful {α : Type} (f : Form α) : Prop where
  writable : ∀ x, (f.toJson x).Writable
  reads_iff : ∀ x, f.ofJson? (f.toJson x) = some x ↔
    f.Holds (fun r => r.isFinite = true ∧ Regained r) x
  finite : ∀ j x, f.ofJson? j = some x → f.Holds (fun r => r.isFinite = true) x

section Laws

variable {α : Type} {f : Form α}

theorem decode?_encode (hf : f.Lawful) {layout : Json.Layout} (hlayout : layout.IsBlank) (x : α) :
    f.decode? (f.encode layout x) = f.ofJson? (f.toJson x) := by
  rw [decode?, encode, Json.parse?_print hlayout (hf.writable x), Option.bind_some]

theorem Lawful.isLossless (hf : f.Lawful) : f.Lossless := by
  constructor
  · intro x layout hlayout
    have hblank : layout.IsBlank := by
      simp only [List.mem_cons, List.not_mem_nil, or_false] at hlayout
      rcases hlayout with rfl | rfl
      · exact Json.isBlank_compact
      · exact Json.isBlank_pretty
    rw [decode?_encode hf hblank]
    exact hf.reads_iff x
  · intro text x h hregained
    obtain ⟨j, -, hj⟩ := Option.bind_eq_some_iff.mp h
    obtain ⟨hfits, hfinite⟩ := hf.finite j x hj
    rw [decode?_encode hf Json.isBlank_compact, hf.reads_iff]
    exact ⟨hfits, fun r hr => ⟨hfinite r hr, hregained r hr⟩⟩

end Laws

/-! ### Strings and numbers -/

/-- A text. -/
def text : Form String where
  toJson := Json.text
  ofJson? := Json.text?
  Fits _ := True
  reals _ := []

theorem lawful_text : text.Lawful where
  writable := .text
  reads_iff _ := ⟨fun _ => ⟨trivial, nofun⟩, fun _ => rfl⟩
  finite _ _ _ := ⟨trivial, nofun⟩

/-- An integer of 64 bits without a sign. -/
def natural : Form Nat where
  toJson := Json.natural
  ofJson? := Json.natural?
  Fits n := n < UInt64.size
  reals _ := []

theorem natural?_natural (n : Nat) :
    Json.natural? (Json.natural n) = if n < UInt64.size then some n else none := by
  have hint : Json.integer? (toString n) = some (Int.ofNat n) := Json.integer?_toString n
  rw [Json.natural, Json.natural?, hint]

theorem lt_of_natural? {j : Json} {n : Nat} (h : Json.natural? j = some n) : n < UInt64.size := by
  simp only [Json.natural?] at h
  split at h
  · split at h
    · next hn =>
      obtain ⟨hlt, heq⟩ := Option.ite_none_right_eq_some.mp h
      cases heq
      exact hlt
    · cases h
  · cases h

theorem lawful_natural : natural.Lawful where
  writable n := .number (Json.isNumber_toString n)
  reads_iff n := by
    show Json.natural? (Json.natural n) = some n ↔ n < UInt64.size ∧ _
    rw [natural?_natural, Option.ite_none_right_eq_some]
    exact ⟨fun h => ⟨h.1, nofun⟩, fun h => ⟨h.1, rfl⟩⟩
  finite _ _ h := ⟨lt_of_natural? h, nofun⟩

/-! ### Lists and missing values -/

section Lists

variable {α β γ : Type}

theorem mapM_map_eq_some_iff (write : α → β) (read : β → Option γ) (g : α → γ) (xs : List α) :
    (xs.map write).mapM read = some (xs.map g) ↔ ∀ x ∈ xs, read (write x) = some (g x) := by
  induction xs with
  | nil => exact ⟨fun _ => nofun, fun _ => rfl⟩
  | cons x xs ih =>
    rw [List.map_cons, List.map_cons, List.mapM_cons, List.forall_mem_cons, ← ih]
    constructor
    · intro h
      obtain ⟨y, hy, h⟩ := Option.bind_eq_some_iff.mp h
      obtain ⟨ys, hys, h⟩ := Option.bind_eq_some_iff.mp h
      cases h
      exact ⟨hy, hys⟩
    · rintro ⟨hx, hxs⟩
      rw [hx, hxs]
      rfl

theorem forall_mem_of_mapM_eq_some {read : β → Option α} {P : α → Prop}
    (hP : ∀ b a, read b = some a → P a) {bs : List β} {xs : List α}
    (h : bs.mapM read = some xs) : ∀ x ∈ xs, P x := by
  induction bs generalizing xs with
  | nil =>
    cases h
    exact nofun
  | cons b bs ih =>
    rw [List.mapM_cons] at h
    obtain ⟨y, hy, h⟩ := Option.bind_eq_some_iff.mp h
    obtain ⟨ys, hys, h⟩ := Option.bind_eq_some_iff.mp h
    cases h
    exact List.forall_mem_cons.mpr ⟨hP b y hy, ih hys⟩

/-- One value behind the other. -/
def list (f : Form α) : Form (List α) where
  toJson xs := .array (xs.map f.toJson)
  ofJson? j := j.items?.bind (·.mapM f.ofJson?)
  Fits xs := ∀ x ∈ xs, f.Fits x
  reals xs := xs.flatMap f.reals

theorem holds_list {f : Form α} {P : Float → Prop} {xs : List α} :
    (list f).Holds P xs ↔ ∀ x ∈ xs, f.Holds P x := by
  constructor
  · rintro ⟨hfits, hreals⟩ x hx
    exact ⟨hfits x hx, fun r hr => hreals r (List.mem_flatMap.mpr ⟨x, hx, hr⟩)⟩
  · intro h
    refine ⟨fun x hx => (h x hx).1, fun r hr => ?_⟩
    obtain ⟨x, hx, hr⟩ := List.mem_flatMap.mp hr
    exact (h x hx).2 r hr

theorem lawful_list {f : Form α} (hf : f.Lawful) : (list f).Lawful where
  writable xs := by
    refine .array fun j hj => ?_
    obtain ⟨x, -, rfl⟩ := List.mem_map.mp hj
    exact hf.writable x
  reads_iff xs := by
    show (xs.map f.toJson).mapM f.ofJson? = some xs ↔ _
    have hlist := mapM_map_eq_some_iff f.toJson f.ofJson? id xs
    rw [List.map_id] at hlist
    rw [hlist, holds_list]
    exact forall₂_congr fun x _ => hf.reads_iff x
  finite j xs h := by
    obtain ⟨items, -, hitems⟩ := Option.bind_eq_some_iff.mp h
    exact holds_list.mpr (forall_mem_of_mapM_eq_some hf.finite hitems)

/-- A value or null. -/
def nullable (f : Form α) : Form (Option α) where
  toJson := Json.nullable f.toJson
  ofJson? j := Json.nullable? f.ofJson? (some j)
  Fits x := ∀ y ∈ x, f.Fits y
  reals x := x.toList.flatMap f.reals

theorem holds_nullable {f : Form α} {P : Float → Prop} {x : Option α} :
    (nullable f).Holds P x ↔ ∀ y ∈ x, f.Holds P y := by
  cases x with
  | none => exact ⟨fun _ => nofun, fun _ => ⟨nofun, nofun⟩⟩
  | some x =>
    constructor
    · rintro ⟨hfits, hreals⟩ _ ⟨⟩
      refine ⟨hfits x rfl, fun r hr => hreals r ?_⟩
      exact List.mem_flatMap.mpr ⟨x, List.mem_singleton_self x, hr⟩
    · intro h
      refine ⟨fun y hy => (h y hy).1, fun r hr => ?_⟩
      obtain ⟨y, hy, hr⟩ := List.mem_flatMap.mp hr
      rw [List.mem_singleton.mp hy] at hr
      exact (h x rfl).2 r hr

theorem nullable?_of_ne_null {read : Json → Option α} {j : Json} (h : j ≠ .null) :
    Json.nullable? read (some j) = (read j).map some := by
  cases j with
  | null => exact absurd rfl h
  | _ => rfl

/-- What is missing, like null, holds nothing that may get lost. -/
theorem holds_of_nullable? {f : Form α} (hf : f.Lawful) {j : Option Json} {x : Option α}
    (h : Json.nullable? f.ofJson? j = some x) :
    (nullable f).Holds (fun r => r.isFinite = true) x := by
  refine holds_nullable.mpr ?_
  rintro y rfl
  cases j with
  | none => cases h
  | some j =>
    by_cases hj : j = .null
    · rw [hj] at h
      cases h
    · rw [nullable?_of_ne_null hj] at h
      obtain ⟨z, hz, heq⟩ := Option.map_eq_some_iff.mp h
      cases heq
      exact hf.finite j y hz

/-- No value of the form is null, so null is told apart from the values. -/
theorem lawful_nullable {f : Form α} (hf : f.Lawful) (hnull : ∀ x, f.toJson x ≠ .null) :
    (nullable f).Lawful where
  writable x := by
    cases x with
    | none => exact .null
    | some x => exact hf.writable x
  reads_iff x := by
    rw [holds_nullable]
    cases x with
    | none => exact ⟨fun _ => nofun, fun _ => rfl⟩
    | some x =>
      show Json.nullable? f.ofJson? (some (f.toJson x)) = _ ↔ _
      rw [nullable?_of_ne_null (hnull x), Option.map_eq_some_iff]
      constructor
      · rintro ⟨y, hy, heq⟩ _ ⟨⟩
        cases heq
        exact (hf.reads_iff x).mp hy
      · intro h
        exact ⟨x, (hf.reads_iff x).mpr (h x rfl), rfl⟩
  finite _ _ h := holds_of_nullable? hf h

end Lists

/-! ### Records -/

section Records

theorem writable_record {fields : List (String × Json)} (h : ∀ m ∈ fields, m.2.Writable) :
    (Json.record fields).Writable := by
  refine .object (fun m hm => ?_) (fun m hm => ?_)
  · obtain ⟨field, -, rfl⟩ := List.mem_map.mp hm
    rfl
  · obtain ⟨field, hfield, rfl⟩ := List.mem_map.mp hm
    exact h field hfield

theorem membersNamed_cons (name key : String) (x : Json) (members : List (Option String × Json)) :
    Json.membersNamed name ((some key, x) :: members) =
      if key = name then x :: Json.membersNamed name members
      else Json.membersNamed name members := by
  rw [Json.membersNamed, List.filterMap_cons]
  by_cases h : key = name
  · rw [if_pos h, h]
    simp only [↓reduceIte]
    rfl
  · simp only [Option.some.injEq, if_neg h]
    rfl

theorem membersNamed_of_not_mem {name : String} {fields : List (String × Json)}
    (h : name ∉ fields.map (·.1)) :
    Json.membersNamed name (fields.map fun (name, x) => (some name, x)) = [] := by
  induction fields with
  | nil => rfl
  | cons field fields ih =>
    obtain ⟨key, x⟩ := field
    rw [List.map_cons, List.mem_cons, not_or] at h
    rw [List.map_cons, membersNamed_cons, if_neg (Ne.symm h.1), ih h.2]

/-- Where all names are different, a member is found under its own. -/
theorem membersNamed_of_mem {name : String} {j : Json} {fields : List (String × Json)}
    (h : (fields.map (·.1)).Nodup) (hmem : (name, j) ∈ fields) :
    Json.membersNamed name (fields.map fun (name, x) => (some name, x)) = [j] := by
  induction fields with
  | nil => cases hmem
  | cons field fields ih =>
    obtain ⟨key, x⟩ := field
    rw [List.map_cons, List.nodup_cons] at h
    rw [List.map_cons, membersNamed_cons]
    rcases List.mem_cons.mp hmem with heq | hmem
    · cases heq
      rw [if_pos rfl, membersNamed_of_not_mem h.1]
    · have hne : key ≠ name := by
        rintro rfl
        exact h.1 (List.mem_map.mpr ⟨_, hmem, rfl⟩)
      rw [if_neg hne, ih h.2 hmem]

/-- The fields of a record are found under their names. -/
theorem fields?_record (short : Bool) {fields : List (String × Json)}
    (h : (fields.map (·.1)).Nodup) :
    (Json.record fields).fields? short (fields.map (·.1)) =
      some (fields.map fun m => some m.2) := by
  have hkeys : (fields.map fun (name, x) => (some name, x)).all (·.1.isSome) = true := by
    rw [List.all_map]
    exact List.all_eq_true.mpr fun _ _ => rfl
  rw [Json.record, Json.fields?, hkeys]
  show (fields.map (·.1)).mapM _ = _
  refine (mapM_map_eq_some_iff _ _ _ fields).mpr fun m hm => ?_
  rw [Json.memberNamed?, membersNamed_of_mem h hm]

variable {α β γ : Type}

/-- A record of two fields. -/
def both (a b : String) (f : Form α) (g : Form β) : Form (α × β) where
  toJson x := .record [(a, f.toJson x.1), (b, g.toJson x.2)]
  ofJson? j := do
    match ← j.fields? false [a, b] with
    | [some x, some y] => return (← f.ofJson? x, ← g.ofJson? y)
    | _ => none
  Fits x := f.Fits x.1 ∧ g.Fits x.2
  reals x := f.reals x.1 ++ g.reals x.2

theorem holds_both {a b : String} {f : Form α} {g : Form β} {P : Float → Prop} {x : α × β} :
    (both a b f g).Holds P x ↔ f.Holds P x.1 ∧ g.Holds P x.2 := by
  show (_ ∧ _) ∧ (∀ r ∈ _ ++ _, P r) ↔ (_ ∧ _) ∧ (_ ∧ _)
  rw [List.forall_mem_append, and_and_and_comm]

theorem both_ofJson?_eq_some_iff {a b : String} {f : Form α} {g : Form β} {j : Json} {x : α × β} :
    (both a b f g).ofJson? j = some x ↔ ∃ k l, j.fields? false [a, b] = some [some k, some l] ∧
      f.ofJson? k = some x.1 ∧ g.ofJson? l = some x.2 := by
  constructor
  · intro h
    obtain ⟨fields, hfields, h⟩ := Option.bind_eq_some_iff.mp h
    split at h
    · next k l =>
      obtain ⟨y, hy, h⟩ := Option.bind_eq_some_iff.mp h
      obtain ⟨z, hz, h⟩ := Option.bind_eq_some_iff.mp h
      cases h
      exact ⟨k, l, hfields, hy, hz⟩
    · cases h
  · rintro ⟨k, l, hfields, hk, hl⟩
    show (j.fields? false [a, b]).bind _ = _
    rw [hfields, Option.bind_some]
    show (f.ofJson? k).bind (fun y => (g.ofJson? l).bind fun z => some (y, z)) = _
    rw [hk, hl]
    rfl

theorem fields?_both {a b : String} (hab : a ≠ b) {f : Form α} {g : Form β} (x : α × β) :
    ((both a b f g).toJson x).fields? false [a, b] =
      some [some (f.toJson x.1), some (g.toJson x.2)] :=
  @fields?_record false [(a, f.toJson x.1), (b, g.toJson x.2)] (by simpa using hab)

theorem lawful_both {a b : String} (hab : a ≠ b) {f : Form α} {g : Form β} (hf : f.Lawful)
    (hg : g.Lawful) : (both a b f g).Lawful where
  writable x := by
    refine writable_record ?_
    rintro m hm
    rcases List.mem_cons.mp hm with rfl | hm
    · exact hf.writable x.1
    · rw [List.mem_singleton.mp hm]
      exact hg.writable x.2
  reads_iff x := by
    rw [both_ofJson?_eq_some_iff, holds_both, ← hf.reads_iff, ← hg.reads_iff, fields?_both hab]
    constructor
    · rintro ⟨k, l, h, hk, hl⟩
      cases h
      exact ⟨hk, hl⟩
    · rintro ⟨hx, hy⟩
      exact ⟨_, _, rfl, hx, hy⟩
  finite j x h := by
    obtain ⟨k, l, -, hk, hl⟩ := both_ofJson?_eq_some_iff.mp h
    exact holds_both.mpr ⟨hf.finite k _ hk, hg.finite l _ hl⟩

/-- The same form for other values. -/
theorem Lawful.of_equiv {f : Form α} (hf : f.Lawful) {g : Form β} (parts : β → α) (back : α → β)
    (hback : ∀ y, back (parts y) = y) (hparts : ∀ x, parts (back x) = x)
    (hwrite : ∀ y, g.toJson y = f.toJson (parts y))
    (hread : ∀ j, g.ofJson? j = (f.ofJson? j).map back)
    (hholds : ∀ P y, g.Holds P y ↔ f.Holds P (parts y)) : g.Lawful where
  writable y := by
    rw [hwrite]
    exact hf.writable (parts y)
  reads_iff y := by
    rw [hread, hwrite, hholds, ← hf.reads_iff, Option.map_eq_some_iff]
    constructor
    · rintro ⟨x, hx, rfl⟩
      rw [hparts] at hx ⊢
      exact hx
    · intro h
      exact ⟨parts y, h, hback y⟩
  finite j y h := by
    rw [hread] at h
    obtain ⟨x, hx, rfl⟩ := Option.map_eq_some_iff.mp h
    rw [hholds, hparts]
    exact hf.finite j x hx

/-- A record of two fields, and what is made of them. -/
theorem map_both_ofJson? {a b : String} {f : Form α} {g : Form β} (make : α × β → γ) (j : Json) :
    ((both a b f g).ofJson? j).map make = (j.fields? false [a, b]).bind fun
      | [some k, some l] =>
        (f.ofJson? k).bind fun x => (g.ofJson? l).bind fun y => some (make (x, y))
      | _ => none := by
  simp only [both, Option.bind_eq_bind, Option.map_bind]
  refine congrArg (Option.bind _) (funext fun fields => ?_)
  simp only [Function.comp_apply]
  split
  · simp only [Option.map_bind, Function.comp_def, Option.pure_def, Option.map_some]
  · rfl

end Records

end Form

end QueryTrace

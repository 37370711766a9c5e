/-
Preferences survive saving.

What is in force comes from the file and from the environment, and the file may hold anything.  What
is in force is always good to be saved, though, and then the file alone is enough.

* `ofJson?_eq_some_iff` — what a record of preferences is, whether it is written or read;
* `parse?_print` — preferences are found in their text if their limits fit in 64 bits, and
  `fits_load`: all that are in force do;
* `override_override` — settings that have been applied change nothing when they are applied again;
* `Surroundings` — files and settings, with `Surroundings.load` and `Surroundings.save`;
* **`Surroundings.load_save`** — saved preferences are loaded again, with the settings or without
  them.

Design notes: saving is to succeed; what happens to a file that cannot be written is not the
business of preferences.  A file that is no text is no file here, as for `Preferences.load`.
-/
import Mathlib.Logic.Function.Basic
import QueryTrace.DataDir
import QueryTrace.Preferences
import QueryTrace.Proofs.Forms

namespace QueryTrace.Preferences

/-! ### Texts of preferences -/

/-- Do the limits fit in 64 bits? -/
structure Fits (p : Preferences) : Prop where
  maxProductRows : ∀ n ∈ p.maxProductRows, n < UInt64.size
  timeBudget : ∀ n ∈ p.timeBudget, n < UInt64.size

/-- The names of the fields in their order. -/
def fieldNames : List String :=
  ["database", "visualize", "max_product_rows", "time_budget_ms"]

theorem lawful_database : (Form.nullable Form.text).Lawful :=
  Form.lawful_nullable Form.lawful_text nofun

theorem lawful_limit : (Form.nullable Form.natural).Lawful :=
  Form.lawful_nullable Form.lawful_natural nofun

section Texts

variable {p : Preferences}

/-- A record holds preferences if each of its fields does. -/
theorem ofJson?_eq_some_iff {j : Json} :
    ofJson? j = some p ↔ ∃ database visualize rows time,
      j.fields? true fieldNames = some [database, visualize, rows, time] ∧
      Json.nullable? Json.text? database = some p.database ∧ flag? visualize = some p.visualize ∧
      Json.nullable? Json.natural? rows = some p.maxProductRows ∧
      Json.nullable? Json.natural? time = some p.timeBudget := by
  constructor
  · intro h
    obtain ⟨fields, hfields, h⟩ := Option.bind_eq_some_iff.mp h
    split at h
    · next database visualize rows time =>
      obtain ⟨_, hdatabase, h⟩ := Option.bind_eq_some_iff.mp h
      obtain ⟨_, hvisualize, h⟩ := Option.bind_eq_some_iff.mp h
      obtain ⟨_, hrows, h⟩ := Option.bind_eq_some_iff.mp h
      obtain ⟨_, htime, h⟩ := Option.bind_eq_some_iff.mp h
      cases h
      exact ⟨database, visualize, rows, time, hfields, hdatabase, hvisualize, hrows, htime⟩
    · cases h
  · rintro ⟨database, visualize, rows, time, hfields, hdatabase, hvisualize, hrows, htime⟩
    show (j.fields? true fieldNames).bind _ = _
    rw [hfields, Option.bind_some]
    show (Json.nullable? Json.text? database).bind (fun database =>
      (flag? visualize).bind fun visualize => (Json.nullable? Json.natural? rows).bind fun rows =>
        (Json.nullable? Json.natural? time).bind fun time =>
          some (Preferences.mk database visualize rows time)) = _
    rw [hdatabase, hvisualize, hrows, htime]
    rfl

theorem writable_toJson (p : Preferences) : p.toJson.Writable := by
  refine Form.writable_record ?_
  simp only [List.forall_mem_cons]
  exact ⟨lawful_database.writable p.database, .bool _, lawful_limit.writable p.maxProductRows,
    lawful_limit.writable p.timeBudget, nofun⟩

theorem fields?_toJson (p : Preferences) :
    p.toJson.fields? true fieldNames =
      some [some (.nullable .text p.database), some (.bool p.visualize),
        some (.nullable .natural p.maxProductRows), some (.nullable .natural p.timeBudget)] := by
  refine @Form.fields?_record true [("database", .nullable .text p.database),
    ("visualize", .bool p.visualize), ("max_product_rows", .nullable .natural p.maxProductRows),
    ("time_budget_ms", .nullable .natural p.timeBudget)] ?_
  show fieldNames.Nodup
  decide

theorem nullable?_natural_iff (n : Option Nat) :
    Json.nullable? Json.natural? (some (.nullable .natural n)) = some n ↔
      ∀ m ∈ n, m < UInt64.size :=
  (lawful_limit.reads_iff n).trans ⟨And.left, fun h => ⟨h, by cases n <;> exact nofun⟩⟩

/-- **Preferences are found in their text** if and only if their limits fit in 64 bits. -/
theorem parse?_print (p : Preferences) : parse? p.print = some p ↔ p.Fits := by
  have htext : Json.nullable? Json.text? (some (.nullable .text p.database)) = some p.database := by
    cases p.database <;> rfl
  rw [parse?, print, Json.parse?_print Json.isBlank_pretty (writable_toJson p), Option.bind_some,
    ofJson?_eq_some_iff, fields?_toJson]
  constructor
  · rintro ⟨_, _, _, _, h, -, -, hrows, htime⟩
    cases h
    exact ⟨(nullable?_natural_iff _).mp hrows, (nullable?_natural_iff _).mp htime⟩
  · intro h
    exact ⟨_, _, _, _, rfl, htext, rfl, (nullable?_natural_iff _).mpr h.maxProductRows,
      (nullable?_natural_iff _).mpr h.timeBudget⟩

/-! ### What is in force -/

theorem fits_default : Fits {} :=
  ⟨nofun, nofun⟩

theorem fits_of_parse? {text : String} (h : parse? text = some p) : p.Fits := by
  obtain ⟨j, -, hj⟩ := Option.bind_eq_some_iff.mp h
  obtain ⟨_, _, _, _, -, -, -, hrows, htime⟩ := ofJson?_eq_some_iff.mp hj
  have hread : ∀ {j : Option Json} {x : Option Nat}, Json.nullable? Json.natural? j = some x →
      ∀ n ∈ x, n < UInt64.size := by
    intro j x hx
    exact (Form.holds_of_nullable? Form.lawful_natural hx).1
  exact ⟨hread hrows, hread htime⟩

theorem fits_override (h : p.Fits) (rows time : Option String) : (p.override rows time).Fits := by
  have hsetting : ∀ {setting : Option String} {x : Option Nat}, (∀ n ∈ x, n < UInt64.size) →
      ∀ n ∈ (setting.bind readSetting?).or x, n < UInt64.size := by
    intro setting x hx n hn
    rcases Option.or_eq_some_iff.mp hn with hn | ⟨-, hn⟩
    · obtain ⟨text, -, htext⟩ := Option.bind_eq_some_iff.mp hn
      exact Decimal.lt_of_readNatural? htext
    · exact hx n hn
  exact ⟨hsetting h.maxProductRows, hsetting h.timeBudget⟩

theorem fits_load (file rows time : Option String) : (load file rows time).Fits := by
  refine fits_override ?_ rows time
  cases h : file.bind parse? with
  | none => exact fits_default
  | some p =>
    obtain ⟨text, -, hp⟩ := Option.bind_eq_some_iff.mp h
    exact fits_of_parse? hp

theorem override_override (p : Preferences) (rows time : Option String) :
    (p.override rows time).override rows time = p.override rows time := by
  have hor : ∀ x y : Option Nat, x.or (x.or y) = x.or y := by
    intro x y
    rw [← Option.or_assoc, Option.or_self]
  simp only [override, hor]

end Texts

end Preferences

/-! ### Files -/

/-- What the tool finds around it. -/
structure Surroundings where
  /-- The texts of the files by their paths. -/
  file : String → Option String
  /-- The settings of the environment by their names. -/
  setting : String → Option String

namespace Surroundings

/-- The file of the preferences. -/
def preferencesFile (s : Surroundings) : String :=
  DataDir.preferencesFile (DataDir.dataDir (s.setting (environmentName "DATA_DIR"))
    (s.setting "HOME"))

/-- The preferences in a file. -/
def loadFrom? (s : Surroundings) (path : String) : Option Preferences :=
  (s.file path).bind Preferences.parse?

/-- The surroundings after preferences are written to a file. -/
def saveTo (s : Surroundings) (path : String) (p : Preferences) : Surroundings :=
  { s with file := Function.update s.file path (some p.print) }

/-- The preferences in force. -/
def load (s : Surroundings) : Preferences :=
  Preferences.load (s.file s.preferencesFile) (s.setting (environmentName "MAX_PRODUCT_ROWS"))
    (s.setting (environmentName "TIME_BUDGET_MS"))

/-- The surroundings after preferences are saved. -/
def save (s : Surroundings) (p : Preferences) : Surroundings :=
  s.saveTo s.preferencesFile p

/-- The surroundings without the settings for limits. -/
def withoutLimits (s : Surroundings) : Surroundings :=
  { s with setting := fun name =>
      if name = environmentName "MAX_PRODUCT_ROWS" ∨ name = environmentName "TIME_BUDGET_MS" then
        none
      else s.setting name }

section Saving

variable (s : Surroundings)

theorem load_eq : s.load = ((s.loadFrom? s.preferencesFile).getD {}).override
    (s.setting (environmentName "MAX_PRODUCT_ROWS"))
    (s.setting (environmentName "TIME_BUDGET_MS")) :=
  rfl

theorem loadFrom?_saveTo (path : String) (p : Preferences) :
    (s.saveTo path p).loadFrom? path = Preferences.parse? p.print := by
  show (Function.update s.file path (some p.print) path).bind Preferences.parse? = _
  rw [Function.update_self, Option.bind_some]

/-- The settings for limits have no say in where the file is. -/
theorem preferencesFile_withoutLimits : s.withoutLimits.preferencesFile = s.preferencesFile := by
  have hasked : s.withoutLimits.setting (environmentName "DATA_DIR") =
      s.setting (environmentName "DATA_DIR") := if_neg (by decide +kernel)
  have hhome : s.withoutLimits.setting "HOME" = s.setting "HOME" := if_neg (by decide +kernel)
  rw [preferencesFile, hasked, hhome, preferencesFile]

/-- **Saved preferences are loaded again.** -/
theorem load_save : (∀ path p, (s.saveTo path p).loadFrom? path = some p ↔ p.Fits) ∧
    (s.save s.load).load = s.load ∧ (s.save s.load).withoutLimits.load = s.load := by
  have hsaved : ∀ path p, (s.saveTo path p).loadFrom? path = some p ↔ p.Fits := by
    intro path p
    rw [loadFrom?_saveTo]
    exact Preferences.parse?_print p
  have hloaded : (s.save s.load).loadFrom? s.preferencesFile = some s.load :=
    (hsaved _ _).mpr (Preferences.fits_load _ _ _)
  refine ⟨hsaved, ?_, ?_⟩
  · have hfile : (s.save s.load).preferencesFile = s.preferencesFile := rfl
    rw [load_eq (s.save s.load), hfile, hloaded, Option.getD_some]
    exact Preferences.override_override _ _ _
  · have hfile : (s.save s.load).withoutLimits.preferencesFile = s.preferencesFile :=
      preferencesFile_withoutLimits _
    have hrows :
        (s.save s.load).withoutLimits.setting (environmentName "MAX_PRODUCT_ROWS") = none :=
      if_pos (.inl rfl)
    have htime : (s.save s.load).withoutLimits.setting (environmentName "TIME_BUDGET_MS") = none :=
      if_pos (.inr rfl)
    rw [load_eq (s.save s.load).withoutLimits, hfile, hrows, htime]
    show ((s.save s.load).loadFrom? s.preferencesFile).getD {} = s.load
    rw [hloaded, Option.getD_some]

end Saving

end Surroundings

end QueryTrace

/-
How steps are asked for and shown.

* **`Command.parse_step`** — a number behind `.step` is read as that number;
* **`showsStep_stepText`** — a step is shown under a heading that says which of how many it is, and
  of a cursor without steps it is said that there are none;
* **`lines_listSteps`** — the list of steps has a line for each, and **`marksOne_listSteps`** — one
  of them is marked, the one at the position.

Design notes: all of this is said of the characters that a session writes.  No title has a line
break in it, so the lines of the list are its entries.
-/
import Mathlib.Algebra.Group.Nat.Defs
import QueryTrace.Console.Session

namespace QueryTrace

/-! ### Numbers -/

namespace Decimal

/-- A number is read back from its decimal digits. -/
theorem readNatural?_toString {n : Nat} (h : n < UInt64.size) :
    readNatural? (toString n).toList = some n := by
  have hdigits : (toString n).toList = Nat.toDigits 10 n := Nat.toList_repr
  have hall : (Nat.toDigits 10 n).all Char.isDigit = true := by
    rw [List.all_eq_true]
    exact fun c hc => Nat.isDigit_of_mem_toDigits (by omega) (by omega) hc
  have hplus : (Nat.toDigits 10 n).head? ≠ some '+' := by
    intro hhead
    exact absurd (List.all_eq_true.mp hall '+' (List.mem_of_head? hhead)) (by decide)
  have hempty : (Nat.toDigits 10 n).isEmpty = false :=
    List.isEmpty_eq_false_iff.mpr Nat.toDigits_ne_nil
  have hnumber : ofDigits (Nat.toDigits 10 n) = n := Nat.ofDigitChars_ten_toDigits
  rw [hdigits, readNatural?, if_neg hplus]
  simp only [hall, hempty, hnumber, h, Bool.not_true, Bool.or_self, Bool.false_eq_true, ↓reduceIte]

end Decimal

/-- **A number behind `.step` is read as that number.** -/
theorem Command.parse_step {n : Nat} (hpos : 1 ≤ n) (h : n < 2 ^ 64) :
    Command.parse (Text.trimText (".step " ++ toString n)) = .step (some n) := by
  have hdigits : (toString n).toList = Nat.toDigits 10 n := Nat.toList_repr
  have hblank : ∀ c ∈ Nat.toDigits 10 n, Text.isBlank c = false := fun c hc =>
    Text.isBlank_of_isDigit (Nat.isDigit_of_mem_toDigits (by omega) (by omega) hc)
  have hargument : Text.trim (Nat.toDigits 10 n) = Nat.toDigits 10 n :=
    Text.trim_of_not_blank (fun c hc => hblank c (List.mem_of_head? hc))
      (fun c hc => hblank c (List.mem_of_getLast? hc))
  have hline : (".step " ++ toString n).toList =
      ['.', 's', 't', 'e', 'p', ' '] ++ Nat.toDigits 10 n := by
    rw [String.toList_append, hdigits]
    rfl
  have hlast : (['.', 's', 't', 'e', 'p', ' '] ++ Nat.toDigits 10 n).getLast? =
      (Nat.toDigits 10 n).getLast? := by
    rw [List.getLast?_append, List.getLast?_eq_some_getLast Nat.toDigits_ne_nil]
    rfl
  have htrim : Text.trimText (".step " ++ toString n) = ".step " ++ toString n := by
    have hends : Text.trim (['.', 's', 't', 'e', 'p', ' '] ++ Nat.toDigits 10 n) =
        ['.', 's', 't', 'e', 'p', ' '] ++ Nat.toDigits 10 n := by
      refine Text.trim_of_not_blank ?_ ?_
      · rintro c ⟨⟩
        decide
      · rw [hlast]
        exact fun c hc => hblank c (List.mem_of_getLast? hc)
    rw [Text.trimText, hline, hends, ← hline, String.ofList_toList]
  have hsplit : split (".step " ++ toString n) = (".step", toString n) := by
    have hrest : Text.trim (' ' :: Nat.toDigits 10 n) = Nat.toDigits 10 n := by
      have hstart : Text.trimStart ([' '] ++ Nat.toDigits 10 n) =
          Text.trimStart (Nat.toDigits 10 n) := Text.trimStart_blank_append rfl
      exact (congrArg Text.trimEnd hstart).trans hargument
    rw [split, hline]
    show (".step", String.ofList (Text.trim (' ' :: Nat.toDigits 10 n))) = _
    rw [hrest, ← hdigits, String.ofList_toList]
  have hordinal : ordinal? (toString n) = some n := by
    rw [ordinal?, Decimal.readNatural?_toString h, Option.filter_some, if_pos (by simpa using hpos)]
  rw [htrim, parse, hsplit]
  exact congrArg Command.step hordinal

namespace Session

/-! ### One step -/

/-- What is written of a cursor without steps. -/
def noSteps : String := line "No steps. Run a SELECT with a FROM clause first."

/-- A text shows the step at the position of a cursor, under a heading with the number of the step
and the number of all steps, or says that there are none. -/
def ShowsStep (colour : Bool) (c : Cursor) (text : String) : Prop :=
  (text = noSteps ↔ c.steps = []) ∧
    (c.steps ≠ [] → ∃ step body, c.steps[c.position]? = some step ∧
      text = line (Drawing.drawStep colour step c.position c.steps.length) ∧
      text = line (Drawing.embolden colour ("Step " ++ toString (c.position + 1) ++ "/" ++
        toString c.steps.length ++ ": " ++ step.kind.title) ++ "\n" ++ body))

/-- No step is shown as the remark that there are none. -/
theorem line_drawStep_ne (colour : Bool) (step : Step) (index total : Nat) :
    line (Drawing.drawStep colour step index total) ≠ noSteps := by
  intro heq
  have hhead := congrArg (fun text => text.toList.head?) heq
  cases colour with
  | false => simp [line, Drawing.drawStep, Drawing.embolden, noSteps] at hhead
  | true =>
    simp [line, Drawing.drawStep, Drawing.embolden, Drawing.withEffect, noSteps] at hhead

/-- **What a cursor that is well placed shows.** -/
theorem showsStep_stepText (colour : Bool) {c : Cursor} (h : c.WellPlaced) :
    ShowsStep colour c (stepText colour c) := by
  rcases h with hlt | ⟨hposition, hsteps⟩
  · have hcurrent : c.current = some c.steps[c.position] := List.getElem?_eq_getElem hlt
    have hne : c.steps ≠ [] := List.ne_nil_of_length_pos (by omega)
    have htext : stepText colour c =
        line (Drawing.drawStep colour c.steps[c.position] c.position c.steps.length) := by
      rw [stepText, hcurrent]
    refine ⟨⟨fun h => ?_, fun h => absurd h hne⟩, fun _ => ?_⟩
    · exact absurd (htext.symm.trans h) (line_drawStep_ne _ _ _ _)
    · exact ⟨c.steps[c.position], _, hcurrent, htext, htext⟩
  · have hcurrent : c.current = none := by
      rw [Cursor.current, hsteps]
      rfl
    have htext : stepText colour c = noSteps := by
      rw [stepText, hcurrent]
      rfl
    exact ⟨⟨fun _ => hsteps, fun _ => htext⟩, fun hne => absurd hsteps hne⟩

/-! ### The list of steps -/

/-- The characters of an entry of the list, without the line break. -/
def entryChars (position : Nat) (entry : Step × Nat) : List Char :=
  (if entry.2 = position then '>' else ' ') :: ' ' ::
    (Nat.toDigits 10 (entry.2 + 1) ++ ". ".toList ++ entry.1.kind.title.toList)

/-- No line breaks. -/
def onOneLine (cs : List Char) : Bool :=
  cs.all fun c => c != '\n' && c != '\r'

theorem onOneLine_iff {cs : List Char} :
    onOneLine cs = true ↔ ∀ c ∈ cs, c ≠ '\n' ∧ c ≠ '\r' := by
  simp only [onOneLine, List.all_eq_true, Bool.and_eq_true, bne_iff_ne]

theorem onOneLine_title (k : StepKind) : onOneLine k.title.toList = true := by
  cases k <;> rfl

theorem entryChars_on_one_line (position : Nat) (entry : Step × Nat) :
    ∀ c ∈ entryChars position entry, c ≠ '\n' ∧ c ≠ '\r' := by
  intro c hc
  rw [entryChars, List.mem_cons, List.mem_cons, List.mem_append, List.mem_append] at hc
  rcases hc with rfl | rfl | (hdigit | hpoint) | htitle
  · split <;> decide
  · decide
  · have hdigit := Nat.isDigit_of_mem_toDigits (by omega) (by omega) hdigit
    constructor
    · rintro rfl
      exact absurd hdigit (by decide)
    · rintro rfl
      exact absurd hdigit (by decide)
  · exact onOneLine_iff.mp (by decide) c hpoint
  · exact onOneLine_iff.mp (onOneLine_title _) c htitle

/-- **The list of steps has a line for each step**, in order. -/
theorem lines_listSteps {c : Cursor} (h : c.steps ≠ []) :
    Text.lines (listSteps c).toList = c.steps.zipIdx.map (entryChars c.position) := by
  have hentry : ∀ entry : Step × Nat,
      (line ((if entry.2 = c.position then ">" else " ") ++ " " ++ toString (entry.2 + 1) ++ ". " ++
        entry.1.kind.title)).toList = entryChars c.position entry ++ ['\n'] := by
    intro entry
    have hdigits : (toString (entry.2 + 1)).toList = Nat.toDigits 10 (entry.2 + 1) :=
      Nat.toList_repr
    rw [line, String.toList_append, String.toList_append, String.toList_append,
      String.toList_append, String.toList_append, hdigits, entryChars]
    split <;> simp
  have hlist : (listSteps c).toList =
      Text.unlines (c.steps.zipIdx.map (entryChars c.position)) := by
    have hempty : c.steps.isEmpty = false := List.isEmpty_eq_false_iff.mpr h
    rw [listSteps, hempty, Text.unlines, List.flatMap_map]
    show (String.join _).toList = _
    rw [String.toList_join, List.flatMap_map]
    exact congrArg c.steps.zipIdx.flatMap (funext hentry)
  rw [hlist, Text.lines_unlines]
  intro l hl
  obtain ⟨entry, -, rfl⟩ := List.mem_map.mp hl
  exact entryChars_on_one_line c.position entry

/-- A text has a line for each step of a cursor, and marks the one at the position. -/
def MarksOne (c : Cursor) (text : String) : Prop :=
  ∃ before marked after, Text.lines text.toList = before ++ marked :: after ∧
    (before ++ marked :: after).length = c.steps.length ∧ before.length = c.position ∧
    marked.head? = some '>' ∧ ∀ l ∈ before ++ after, l.head? = some ' '

/-- **One step is marked**, if there are any. -/
theorem marksOne_listSteps {c : Cursor} (h : c.WellPlaced) (hsteps : c.steps ≠ []) :
    MarksOne c (listSteps c) := by
  have hlt : c.position < c.steps.length := by
    rcases h with hlt | ⟨-, hnil⟩
    · exact hlt
    · exact absurd hnil hsteps
  rw [MarksOne, lines_listSteps hsteps]
  generalize hentries : c.steps.zipIdx.map (entryChars c.position) = entries
  have hlength : entries.length = c.steps.length := by
    rw [← hentries, List.length_map, List.length_zipIdx]
  have hhead : ∀ i (hi : i < entries.length),
      entries[i].head? = some (if i = c.position then '>' else ' ') := by
    subst hentries
    intro i hi
    simp [entryChars]
  have hsplit : entries = entries.take c.position ++
      entries[c.position] :: entries.drop (c.position + 1) := by
    rw [← List.drop_eq_getElem_cons, List.take_append_drop]
  refine ⟨_, _, _, hsplit, hsplit ▸ hlength, ?_, ?_, ?_⟩
  · rw [List.length_take]
    omega
  · rw [hhead, if_pos rfl]
  · intro l hl
    rcases List.mem_append.mp hl with hl | hl
    · obtain ⟨i, hi, rfl⟩ := List.mem_take_iff_getElem.mp hl
      rw [hhead, if_neg (by omega)]
    · obtain ⟨i, hi, rfl⟩ := List.mem_drop_iff_getElem.mp hl
      rw [hhead, if_neg (by omega)]

end Session

end QueryTrace

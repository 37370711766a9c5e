/-
Walking through the steps of a session.

A session keeps the steps of the last statement and a place among them.  Whatever lines it has
taken, the place is one of the steps, and the steps are those of the last statement that was
executed in the store.

* `Kept` — what every act preserves (`kept_carryOut`), and so every session (`kept_inTurn_feed`);
* **`cursor_follows_statements`** — the place, the steps, and what the commands make of them.

Design notes: the last statement is that of the history which a recording engine keeps, so the
steps are compared with what was executed and not with what the session says of itself.
-/
import QueryTrace.Proofs.Recording
import QueryTrace.Proofs.StepTexts

namespace QueryTrace

/-! ### Cursors -/

/-- Where a command moves a cursor: one further, one back, or to a number that counts from one, and
in any case not beyond the last step. -/
def Command.target? (c : Cursor) : Command → Option Nat
  | .next => some (min (c.position + 1) (c.steps.length - 1))
  | .prev => some (c.position - 1)
  | .step (some n) => some (min (n - 1) (c.steps.length - 1))
  | _ => none

theorem Cursor.next_eq {c : Cursor} (h : c.WellPlaced) :
    c.next = { c with position := min (c.position + 1) (c.steps.length - 1) } := by
  rw [next]
  split
  · next hlt =>
    have hmin : min (c.position + 1) (c.steps.length - 1) = c.position + 1 := by omega
    rw [hmin]
  · next hlast =>
    have hmin : min (c.position + 1) (c.steps.length - 1) = c.position := by
      rcases h with hlt | ⟨hposition, hsteps⟩
      · omega
      · rw [hposition, hsteps]
        rfl
    rw [hmin]

theorem Cursor.wellPlaced_of_target {c : Cursor} (h : c.WellPlaced) {command : Command}
    {target : Nat} (htarget : command.target? c = some target) :
    ({ c with position := target } : Cursor).WellPlaced := by
  have hle : target ≤ c.steps.length - 1 ∨ target ≤ c.position := by
    cases command with
    | next =>
      obtain rfl := Option.some.inj htarget
      omega
    | prev =>
      obtain rfl := Option.some.inj htarget
      omega
    | step number =>
      cases number with
      | none => cases htarget
      | some n =>
        obtain rfl := Option.some.inj htarget
        omega
    | _ => cases htarget
  rcases h with hlt | ⟨hposition, hsteps⟩
  · refine .inl ?_
    show target < c.steps.length
    omega
  · refine .inr ⟨?_, hsteps⟩
    rw [hposition, hsteps] at hle
    exact Nat.le_zero.mp (hle.elim id id)

namespace Session

variable {σ : Type} (console : Console σ)

/-! ### Commands -/

theorem perform_target (s : Session σ) (h : s.cursor.WellPlaced) {command : Command}
    {target : Nat} (htarget : command.target? s.cursor = some target) :
    perform console s command = moveTo console s { s.cursor with position := target } := by
  cases command with
  | next =>
    obtain rfl := Option.some.inj htarget
    show moveTo console s s.cursor.next = _
    rw [Cursor.next_eq h]
  | prev =>
    obtain rfl := Option.some.inj htarget
    rfl
  | step number =>
    cases number with
    | none => cases htarget
    | some n =>
      obtain rfl := Option.some.inj htarget
      rfl
  | _ => cases htarget

/-! ### The steps of the last statement -/

/-- The steps of the last statement of a history, if it can be traced. -/
def lastSteps (limits : Limits) (history : List (σ × String)) : List Step :=
  match history.getLast? with
  | none => []
  | some (met, sql) => (Trace.outcome (settingAt console limits met) sql).1.toOption.getD []

/-- The cursor is at one of the steps of the last statement. -/
structure Kept (limits : Limits) (r : Session (Recorded σ)) : Prop where
  placed : r.cursor.WellPlaced
  steps : r.cursor.steps = lastSteps console limits r.store.history
  limits : r.preferences.limits = limits

/-- **Every act keeps the cursor at the steps of the last statement.** -/
theorem kept_carryOut {limits : Limits} {r : Session (Recorded σ)} (h : Kept console limits r)
    (a : Act) : Kept console limits (a.carryOut console.recording r).session := by
  cases a with
  | say text => exact h
  | collect lines => exact ⟨h.placed, h.steps, h.limits⟩
  | run sql =>
    refine ⟨Cursor.ofSteps_wellPlaced _, ?_, h.limits⟩
    show traceSteps console.recording r sql =
      lastSteps console limits (r.store.history ++ [(r.store.store, sql)])
    rw [lastSteps, List.getLast?_concat, traceSteps_eq, h.limits]
    rfl
  | obey command hscript =>
    show Kept console limits (perform console.recording r command).session
    rcases perform_cases console.recording r hscript with
      ⟨path, opened, -, hopen, hperform⟩ |
        ⟨-, preferences, cursor, text, hperform, hlimits, hsteps, hplaced⟩
    · obtain ⟨store, -, rfl⟩ := Console.openStore_recording hopen
      rw [hperform]
      exact ⟨.inr ⟨rfl, rfl⟩, rfl, h.limits⟩
    · rw [hperform]
      exact ⟨hplaced h.placed, hsteps.trans h.steps, hlimits.trans h.limits⟩

/-- **Every session keeps the cursor at the steps of the last statement.** -/
theorem kept_inTurn_feed {limits : Limits} {r : Session (Recorded σ)} (h : Kept console limits r)
    (inputs : List String) :
    Kept console limits (inTurn (feed console.recording) r inputs).session := by
  obtain ⟨hsession, -⟩ := Prod.mk.inj (outcome_inTurn_feed console.recording r inputs)
  rw [hsession]
  exact inTurn_preserves _ (P := Kept console limits)
    (fun _ a hkept => kept_carryOut console hkept a) h _

/-! ### What the commands make of the steps -/

theorem feed_command {s : Session σ} {input : String} (h : isCommand s.pending input = true) :
    feed console s input =
      perform console { s with pending := "" } (Command.parse (Text.trimText input)) :=
  if_pos h

section Lines

variable {s : Session σ} {input : String} (hinput : isCommand s.pending input = true)

include hinput

/-- A command that reads no file and opens no store keeps the steps. -/
theorem steps_feed_command (hscript : (Command.parse (Text.trimText input)).script? = none)
    (hopen : ∀ path store, Command.parse (Text.trimText input) = .openStore path →
      console.engine.openStore path ≠ .ok store) :
    (feed console s input).session.cursor.steps = s.cursor.steps := by
  rw [feed_command console hinput]
  rcases perform_cases console { s with pending := "" } hscript with
    ⟨path, store, hcommand, hok, -⟩ | ⟨-, preferences, cursor, text, hperform, -, hsteps, -⟩
  · exact absurd hok (hopen path store hcommand)
  · rw [hperform]
    exact hsteps

/-- A command that reads no file executes nothing: the store is the one it was, or another. -/
theorem store_feed_command (hscript : (Command.parse (Text.trimText input)).script? = none) :
    (feed console s input).session.store = s.store ∨
      ∃ path store, Command.parse (Text.trimText input) = .openStore path ∧
        console.engine.openStore path = .ok store ∧
        (feed console s input).session.store = store := by
  rw [feed_command console hinput]
  rcases perform_cases console { s with pending := "" } hscript with
    ⟨path, store, hcommand, hok, hperform⟩ | ⟨-, preferences, cursor, text, hperform, -⟩
  · rw [hperform]
    exact .inr ⟨path, store, hcommand, hok, rfl⟩
  · rw [hperform]
    exact .inl rfl

variable (hplaced : s.cursor.WellPlaced)

include hplaced

/-- A command that moves the cursor shows the step to which it moves it. -/
theorem feed_target {target : Nat}
    (htarget : (Command.parse (Text.trimText input)).target? s.cursor = some target) :
    (feed console s input).session.cursor = { s.cursor with position := target } ∧
      ShowsStep console.colour (feed console s input).session.cursor
        (feed console s input).text := by
  have hmove : feed console s input =
      moveTo console { s with pending := "" } { s.cursor with position := target } :=
    (feed_command console hinput).trans
      (perform_target console { s with pending := "" } hplaced htarget)
  rw [hmove]
  exact ⟨rfl, showsStep_stepText console.colour (Cursor.wellPlaced_of_target hplaced htarget)⟩

/-- The list of steps marks the step at the cursor. -/
theorem feed_steps (hcommand : Command.parse (Text.trimText input) = .steps)
    (hsteps : s.cursor.steps ≠ []) : MarksOne s.cursor (feed console s input).text := by
  rw [feed_command console hinput, hcommand]
  exact marksOne_listSteps hplaced hsteps

end Lines

/-! ### Sessions -/

/-- **Sessions walk through the steps of the last statement.**  After any lines the cursor is at
one of the steps, and they are those of the last statement that was executed since a store was
opened.  Of the commands that read no file only the opening of a store changes the steps, and none
executes a statement.  The commands that move the cursor show the step to which they move it, and
the list of steps marks the step at the cursor. -/
theorem cursor_follows_statements (store : σ) (preferences : Preferences) (inputs : List String) :
    let start : Session σ := { store, preferences }
    let s := (inTurn (feed console) start inputs).session
    let r := (inTurn (feed console.recording) start.record inputs).session
    s.cursor.WellPlaced ∧
    (r.forget = s ∧ s.cursor.steps = lastSteps console preferences.limits r.store.history) ∧
    (∀ n, 1 ≤ n → n < 2 ^ 64 →
      Command.parse (Text.trimText (".step " ++ toString n)) = .step (some n)) ∧
    ∀ input, isCommand s.pending input = true →
      let command := Command.parse (Text.trimText input)
      let reply := feed console s input
      (command.script? = none →
        (∀ path store, command = .openStore path → console.engine.openStore path ≠ .ok store) →
        reply.session.cursor.steps = s.cursor.steps) ∧
      (command.script? = none →
        (feed console.recording r input).session.store = r.store ∨
          ∃ path store, command = .openStore path ∧ console.engine.openStore path = .ok store ∧
            (feed console.recording r input).session.store = { store }) ∧
      (∀ target, command.target? s.cursor = some target →
        reply.session.cursor = { s.cursor with position := target } ∧
          ShowsStep console.colour reply.session.cursor reply.text) ∧
      (command = .steps → s.cursor.steps ≠ [] → MarksOne s.cursor reply.text) := by
  intro start s r
  have hforget : s = r.forget :=
    (Prod.mk.inj (outcome_inTurn_feed_recording console start.record inputs)).1
  have hstart : Kept console preferences.limits start.record := ⟨.inr ⟨rfl, rfl⟩, rfl, rfl⟩
  have hkept : Kept console preferences.limits r := kept_inTurn_feed console hstart inputs
  have hplaced : s.cursor.WellPlaced := by
    rw [hforget]
    exact hkept.placed
  have hsteps : s.cursor.steps = lastSteps console preferences.limits r.store.history := by
    rw [hforget]
    exact hkept.steps
  have hpending : r.pending = s.pending := by
    rw [hforget]
    rfl
  -- from here on it does not matter how the two sessions were reached
  clear_value s r
  refine ⟨hplaced, ⟨hforget.symm, hsteps⟩, fun n hpos hn => Command.parse_step hpos hn, ?_⟩
  intro input hinput command reply
  refine ⟨steps_feed_command console hinput, ?_, fun target => feed_target console hinput hplaced,
    feed_steps console hinput hplaced⟩
  intro hscript
  rw [← hpending] at hinput
  rcases store_feed_command console.recording hinput hscript with
    hsame | ⟨path, opened, hcommand, hok, hopened⟩
  · exact .inl hsame
  · obtain ⟨inner, hinner, rfl⟩ := Console.openStore_recording hok
    exact .inr ⟨path, inner, hcommand, hinner, hopened⟩

/-- The pairs of two animals have four steps: the second is shown behind the first, and the last in
place of the seventh. -/
theorem cursor_follows_statements_pets :
    let c := Console.onShelf .error
    let inputs := ["SELECT *", "FROM pets, pets AS b;"]
    let s := (inTurn (feed c) { store := .pets, preferences := {} } inputs).session
    (feed c s ".next").session.cursor = { s.cursor with position := 1 } ∧
    (feed c s ".step 7").session.cursor = { s.cursor with position := 3 } ∧
    MarksOne s.cursor (feed c s ".steps").text := by
  intro c inputs s
  obtain ⟨-, -, -, hcommands⟩ := cursor_follows_statements c .pets {} inputs
  have hlength : s.cursor.steps.length = 4 := by decide +kernel
  have hposition : s.cursor.position = 0 := by decide +kernel
  have hline : ∀ input, (Text.trimStart input.toList).head? = some '.' →
      isCommand s.pending input = true := by
    intro input hhead
    have hpending : s.pending = "" := by decide +kernel
    rw [isCommand, hpending, hhead]
    rfl
  have hnext : Command.parse (Text.trimText ".next") = .next := by decide +kernel
  have hstep : Command.parse (Text.trimText ".step 7") = .step (some 7) := by decide +kernel
  have hsteps : Command.parse (Text.trimText ".steps") = .steps := by decide +kernel
  refine ⟨?_, ?_, ?_⟩
  · refine ((hcommands ".next" (hline _ (by decide))).2.2.1 1 ?_).1
    rw [hnext, Command.target?, hlength, hposition]
    rfl
  · refine ((hcommands ".step 7" (hline _ (by decide))).2.2.1 3 ?_).1
    rw [hstep, Command.target?, hlength]
    rfl
  · have hpos : 0 < s.cursor.steps.length := by omega
    exact (hcommands ".steps" (hline _ (by decide))).2.2.2 hsteps (List.ne_nil_of_length_pos hpos)

end Session

end QueryTrace

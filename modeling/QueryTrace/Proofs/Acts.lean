/-
Sessions as sequences of acts.

Whatever is typed at the console comes down to acts of a few kinds: a text is said, lines of a
statement are collected, a statement is run, or a command is obeyed that reads no file.  Which acts
a line asks for depends on the lines collected before it and on the files, and neither on the store
nor on the preferences.

* `Act.carryOut` — what comes of an act;
* `actsOfLine`, `actsOfLines` and `actsOfInput` — the acts that a line, several lines or a whole
  input ask for;
* `feed_cases` and `perform_cases` — what a line can do, and what a command can do;
* **`outcome_feed`**, **`outcome_inTurn_feed`**, **`outcome_feedAll`** — a session does these acts
  in turn and nothing else;
* `inTurn_preserves` — what every act preserves, every session does;
* `settingAt` and `traceSteps_eq` — the steps of a statement, from the state of the store.

Design notes: the constructor of commands refuses the reading of a file, so a property of sessions
is a property of one statement and of one command, whatever the files hold.
-/
import QueryTrace.Console.Session

namespace QueryTrace

/-- The file whose statements a command runs. -/
def Command.script? : Command → Option String
  | .read path => path
  | _ => none

theorem Command.eq_read_of_script? {command : Command} {path : String}
    (h : command.script? = some path) : command = .read (some path) := by
  cases command with
  | read file => exact congrArg Command.read h
  | _ => cases h

/-- What a session does in one go. -/
inductive Act where
  | say (text : String)
  /-- Keep the lines of a statement that has been begun. -/
  | collect (lines : String)
  | run (sql : String)
  | obey (command : Command) (h : command.script? = none)

namespace Act

variable {σ : Type}

/-- Does an act. -/
def carryOut (console : Console σ) (s : Session σ) : Act → Reply σ
  | say text => { session := s, text }
  | collect lines => { session := { s with pending := lines } }
  | run sql => Session.runStatement console s sql
  | obey command _ => Session.perform console s command

/-- The statement that an act runs. -/
def statement? : Act → Option String
  | run sql => some sql
  | _ => none

end Act

/-- What comes of an action, whether or not the session ends with it. -/
def Reply.outcome {σ : Type} (r : Reply σ) : Session σ × String :=
  (r.session, r.text)

namespace Session

variable {σ α β : Type}

/-! ### One thing after another -/

section InTurn

variable (act : Session σ → α → Reply σ)

theorem outcome_inTurn_cons (s : Session σ) (x : α) (xs : List α) :
    (inTurn act s (x :: xs)).outcome = ((inTurn act (act s x).session xs).session,
      (act s x).text ++ (inTurn act (act s x).session xs).text) := rfl

theorem outcome_inTurn_append (s : Session σ) (xs ys : List α) :
    (inTurn act s (xs ++ ys)).outcome =
      ((inTurn act (inTurn act s xs).session ys).session,
        (inTurn act s xs).text ++ (inTurn act (inTurn act s xs).session ys).text) := by
  induction xs generalizing s with
  | nil => exact Prod.ext rfl String.empty_append.symm
  | cons x xs ih =>
    obtain ⟨hsession, htext⟩ := Prod.mk.inj (ih (act s x).session)
    rw [List.cons_append, outcome_inTurn_cons, hsession, htext, ← String.append_assoc]
    rfl

theorem outcome_inTurn_singleton (s : Session σ) (x : α) :
    (inTurn act s [x]).outcome = (act s x).outcome :=
  Prod.ext rfl String.append_empty

theorem inTurn_map (act : Session σ → β → Reply σ) (f : α → β) (s : Session σ) (xs : List α) :
    inTurn act s (xs.map f) = inTurn (fun s x => act s (f x)) s xs := by
  induction xs generalizing s with
  | nil => rfl
  | cons x xs ih => rw [List.map_cons, inTurn, inTurn, ih]

/-- A session does not end while it does several things. -/
theorem exit_inTurn (s : Session σ) (xs : List α) : (inTurn act s xs).exit = false := by
  induction xs generalizing s with
  | nil => rfl
  | cons x xs ih => exact ih (act s x).session

theorem inTurn_preserves {P : Session σ → Prop} (h : ∀ s x, P s → P (act s x).session)
    {s : Session σ} (hs : P s) (xs : List α) : P (inTurn act s xs).session := by
  induction xs generalizing s with
  | nil => exact hs
  | cons x xs ih => exact ih (h s x hs)

end InTurn

/-! ### The acts that lines ask for -/

/-- The statements of a script, one after another. -/
def actsOfScript (script : String) : List Act :=
  (Script.statements script).map .run

theorem statements_actsOfScript (script : String) :
    (actsOfScript script).filterMap Act.statement? = Script.statements script := by
  rw [actsOfScript, List.filterMap_map]
  exact List.filterMap_some

theorem obey_not_mem_actsOfScript (script : String) (command : Command)
    (h : command.script? = none) : .obey command h ∉ actsOfScript script := by
  intro hmem
  obtain ⟨sql, -, hsql⟩ := List.mem_map.mp hmem
  cases hsql

/-- The acts that a command asks for. -/
def actsOfCommand (fileText : String → Except String String) (command : Command) : List Act :=
  match h : command.script? with
  | none => [.obey command h]
  | some path =>
    match fileText path with
    | .ok script => actsOfScript script
    | .error reason => [.say (complaint ("cannot read " ++ path ++ ": " ++ reason))]

/-- The lines that are collected behind a line. -/
def pendingAfter (pending input : String) : String :=
  if isCommand pending input || endsStatement input then "" else pending ++ line input

/-- The acts that a line asks for, behind the lines that were collected. -/
def actsOfLine (fileText : String → Except String String) (pending input : String) : List Act :=
  .collect (pendingAfter pending input) ::
    if isCommand pending input then actsOfCommand fileText (Command.parse (Text.trimText input))
    else if endsStatement input then actsOfScript (pending ++ line input)
    else []

/-- The acts that several lines ask for. -/
def actsOfLines (fileText : String → Except String String) : String → List String → List Act
  | _, [] => []
  | pending, input :: inputs =>
    actsOfLine fileText pending input ++ actsOfLines fileText (pendingAfter pending input) inputs

/-- Does the session end with a line? -/
def leaves (pending input : String) : Bool :=
  isCommand pending input && Command.parse (Text.trimText input) == .exit

/-- The words that ask for the next line, if they are wanted. -/
def promptFor (wanted : Bool) (pending : String) : String :=
  if wanted then if pending.isEmpty then toolName ++ "> " else "   ...> " else ""

/-- The acts that a whole input asks for, up to the line with which the session ends. -/
def actsOfInput (fileText : String → Except String String) (wanted : Bool) :
    String → List String → List Act
  | pending, [] =>
    .say (promptFor wanted pending) :: .collect "" ::
      if Text.isBlankText pending.toList then [] else actsOfScript pending
  | pending, input :: inputs =>
    .say (promptFor wanted pending) :: (actsOfLine fileText pending input ++
      if leaves pending input then []
      else actsOfInput fileText wanted (pendingAfter pending input) inputs)

/-! ### Sessions do what the lines ask for -/

variable (console : Console σ)

theorem runScript_eq (s : Session σ) (script : String) :
    runScript console s script = inTurn (Act.carryOut console) s (actsOfScript script) := by
  rw [actsOfScript, inTurn_map]
  rfl

theorem outcome_inTurn_collect (s : Session σ) (lines : String) (acts : List Act) :
    (inTurn (Act.carryOut console) s (.collect lines :: acts)).outcome =
      (inTurn (Act.carryOut console) { s with pending := lines } acts).outcome :=
  Prod.ext rfl String.empty_append

theorem outcome_perform (s : Session σ) (command : Command) :
    (perform console s command).outcome =
      (inTurn (Act.carryOut console) s (actsOfCommand console.fileText command)).outcome := by
  unfold actsOfCommand
  split
  · next h => exact (outcome_inTurn_singleton (Act.carryOut console) s (.obey command h)).symm
  · next path h =>
    obtain rfl := Command.eq_read_of_script? h
    show (runFile console s path).outcome = _
    rw [runFile]
    cases console.fileText path with
    | ok script => exact congrArg Reply.outcome (runScript_eq console s script)
    | error reason => exact (outcome_inTurn_singleton (Act.carryOut console) s (.say _)).symm

/-- What a line can do: it is a command, it ends a statement, or it is kept. -/
theorem feed_cases (s : Session σ) (input : String) :
    (isCommand s.pending input = true ∧ feed console s input =
      perform console { s with pending := "" } (Command.parse (Text.trimText input))) ∨
    (isCommand s.pending input = false ∧ endsStatement input = true ∧ feed console s input =
      runScript console { s with pending := "" } (s.pending ++ line input)) ∨
    (isCommand s.pending input = false ∧ endsStatement input = false ∧ feed console s input =
      { session := { s with pending := s.pending ++ line input } }) := by
  cases hc : isCommand s.pending input with
  | true => exact .inl ⟨rfl, if_pos hc⟩
  | false =>
    have hfeed : feed console s input =
        if endsStatement input then
          runScript console { s with pending := "" } (s.pending ++ line input)
        else { session := { s with pending := s.pending ++ line input } } :=
      if_neg (Bool.eq_false_iff.mp hc)
    rw [hfeed]
    cases endsStatement input with
    | true => exact .inr (.inl ⟨rfl, rfl, rfl⟩)
    | false => exact .inr (.inr ⟨rfl, rfl, rfl⟩)

/-- **A line is its acts in turn.** -/
theorem outcome_feed (s : Session σ) (input : String) :
    (feed console s input).outcome = (inTurn (Act.carryOut console) s
      (actsOfLine console.fileText s.pending input)).outcome := by
  rw [actsOfLine, outcome_inTurn_collect, pendingAfter]
  rcases feed_cases console s input with ⟨hc, hfeed⟩ | ⟨hc, he, hfeed⟩ | ⟨hc, he, hfeed⟩
  · simp only [hfeed, hc, Bool.true_or, ↓reduceIte]
    exact outcome_perform console _ _
  · simp only [hfeed, hc, he, Bool.or_true, Bool.false_eq_true, ↓reduceIte]
    exact congrArg Reply.outcome (runScript_eq console _ _)
  · simp only [hfeed, hc, he, Bool.or_self, Bool.false_eq_true, ↓reduceIte]
    rfl

/-- **What a command can do** if it reads no file: it opens a store and forgets the steps, or it
leaves the store, the steps, the limits and the lines that were collected as they are. -/
theorem perform_cases (s : Session σ) {command : Command} (h : command.script? = none) :
    (∃ path store, command = .openStore path ∧ console.engine.openStore path = .ok store ∧
      perform console s command = { session := { s with store, cursor := {} } }) ∨
    ((∀ path store, command = .openStore path → console.engine.openStore path ≠ .ok store) ∧
      ∃ preferences cursor text, perform console s command =
          { session := { s with preferences, cursor }, text, exit := command == .exit } ∧
        preferences.limits = s.preferences.limits ∧ cursor.steps = s.cursor.steps ∧
        (s.cursor.WellPlaced → cursor.WellPlaced)) := by
  cases command with
  | openStore path =>
    have hperform : perform console s (.openStore path) = changeStore console s path := rfl
    rw [hperform, changeStore]
    cases hopen : console.engine.openStore path with
    | ok store => exact .inl ⟨path, store, rfl, hopen, rfl⟩
    | error message =>
      refine .inr ⟨?_, s.preferences, s.cursor, complaint message, rfl, rfl, rfl, id⟩
      rintro path' store ⟨⟩ hok
      rw [hopen] at hok
      cases hok
  | read path =>
    obtain rfl : path = none := h
    exact .inr ⟨fun _ _ hread => (nomatch hread), s.preferences, s.cursor, _, rfl, rfl, rfl, id⟩
  | next =>
    refine .inr ⟨fun _ _ hnext => (nomatch hnext), s.preferences, s.cursor.next, _, rfl, rfl, ?_,
      Cursor.next_wellPlaced⟩
    rw [Cursor.next]
    split
    · rfl
    · rfl
  | prev =>
    exact .inr ⟨fun _ _ hprev => (nomatch hprev), s.preferences, s.cursor.prev, _, rfl, rfl, rfl,
      Cursor.prev_wellPlaced⟩
  | step number =>
    refine .inr ⟨fun _ _ hstep => (nomatch hstep), s.preferences, ?_⟩
    cases number with
    | none => exact ⟨s.cursor, _, rfl, rfl, rfl, id⟩
    | some n => exact ⟨s.cursor.seek (n - 1), _, rfl, rfl, rfl, fun _ => Cursor.seek_wellPlaced _ _⟩
  | visualize setting =>
    refine .inr ⟨fun _ _ hsetting => (nomatch hsetting), ?_⟩
    cases setting with
    | none => exact ⟨s.preferences, s.cursor, _, rfl, rfl, rfl, id⟩
    | some shown =>
      exact ⟨{ s.preferences with visualize := shown }, s.cursor, "", rfl, rfl, rfl, id⟩
  | _ => exact .inr ⟨fun _ _ hother => (nomatch hother), s.preferences, s.cursor, _, rfl, rfl, rfl,
      id⟩

theorem pending_runScript (s : Session σ) (script : String) :
    (runScript console s script).session.pending = s.pending :=
  inTurn_preserves _ (P := fun s' => s'.pending = s.pending) (fun _ _ h => h) rfl _

/-- A command does not touch the lines that were collected, and only one ends the session. -/
theorem pending_and_exit_perform (s : Session σ) (command : Command) :
    (perform console s command).session.pending = s.pending ∧
      (perform console s command).exit = (command == .exit) := by
  cases h : command.script? with
  | none =>
    rcases perform_cases console s h with
      ⟨path, store, rfl, -, hperform⟩ | ⟨-, preferences, cursor, text, hperform, -⟩
    · rw [hperform]
      exact ⟨rfl, rfl⟩
    · rw [hperform]
      exact ⟨rfl, rfl⟩
  | some path =>
    obtain rfl := Command.eq_read_of_script? h
    have hperform : perform console s (.read (some path)) = runFile console s path := rfl
    rw [hperform, runFile]
    cases console.fileText path with
    | ok script => exact ⟨pending_runScript console s script, exit_inTurn _ s _⟩
    | error reason => exact ⟨rfl, rfl⟩

/-- The lines that are collected behind a line are those of the statement that has been begun, and
the session ends if the line says so. -/
theorem pending_and_exit_feed (s : Session σ) (input : String) :
    (feed console s input).session.pending = pendingAfter s.pending input ∧
      (feed console s input).exit = leaves s.pending input := by
  rw [pendingAfter, leaves]
  rcases feed_cases console s input with ⟨hc, hfeed⟩ | ⟨hc, he, hfeed⟩ | ⟨hc, he, hfeed⟩
  · rw [hfeed, hc]
    exact pending_and_exit_perform console _ _
  · rw [hfeed, hc, he]
    exact ⟨pending_runScript console _ _, exit_inTurn _ _ _⟩
  · rw [hfeed, hc, he]
    exact ⟨rfl, rfl⟩

/-- **Several lines are their acts in turn.** -/
theorem outcome_inTurn_feed (s : Session σ) (inputs : List String) :
    (inTurn (feed console) s inputs).outcome = (inTurn (Act.carryOut console) s
      (actsOfLines console.fileText s.pending inputs)).outcome := by
  induction inputs generalizing s with
  | nil => rfl
  | cons input inputs ih =>
    obtain ⟨hsession, htext⟩ := Prod.mk.inj (outcome_feed console s input)
    obtain ⟨hsessions, htexts⟩ := Prod.mk.inj (ih (feed console s input).session)
    rw [(pending_and_exit_feed console s input).1] at hsessions htexts
    rw [outcome_inTurn_cons, actsOfLines, outcome_inTurn_append, hsessions, htexts, htext,
      hsession]

/-- **A whole input is its acts in turn.** -/
theorem outcome_feedAll (s : Session σ) (inputs : List String) :
    (feedAll console s inputs).outcome = (inTurn (Act.carryOut console) s
      (actsOfInput console.fileText console.prompt s.pending inputs)).outcome := by
  induction inputs generalizing s with
  | nil =>
    have hfinish : (finish console s).outcome = (inTurn (Act.carryOut console) s (.collect "" ::
        if Text.isBlankText s.pending.toList then [] else actsOfScript s.pending)).outcome := by
      rw [finish, outcome_inTurn_collect]
      split
      · rfl
      · exact congrArg Reply.outcome (runScript_eq console _ _)
    obtain ⟨hsession, htext⟩ := Prod.mk.inj hfinish
    exact Prod.ext hsession (congrArg (promptFor console.prompt s.pending ++ ·) htext)
  | cons input inputs ih =>
    obtain ⟨hsession, htext⟩ := Prod.mk.inj (outcome_feed console s input)
    obtain ⟨hsessions, htexts⟩ := Prod.mk.inj (ih (feed console s input).session)
    rw [(pending_and_exit_feed console s input).1] at hsessions htexts
    rw [actsOfInput, outcome_inTurn_cons, feedAll, (pending_and_exit_feed console s input).2]
    by_cases hl : leaves s.pending input = true
    · simp only [hl, ↓reduceIte, List.append_nil]
      refine Prod.ext hsession ?_
      show promptFor console.prompt s.pending ++ (feed console s input).text ++ "" = _
      rw [String.append_empty, htext]
      rfl
    · obtain ⟨hjoin, hjoined⟩ := Prod.mk.inj (outcome_inTurn_append (Act.carryOut console) s
        (actsOfLine console.fileText s.pending input)
        (actsOfInput console.fileText console.prompt (pendingAfter s.pending input) inputs))
      simp only [hl, ↓reduceIte, Bool.false_eq_true]
      refine Prod.ext ?_ ?_
      · show (feedAll console (feed console s input).session inputs).session = _
        rw [hsessions, hsession]
        exact hjoin.symm
      · show promptFor console.prompt s.pending ++ (feed console s input).text ++
          (feedAll console (feed console s input).session inputs).text = _
        rw [htexts, htext, hsession, String.append_assoc]
        exact congrArg (promptFor console.prompt s.pending ++ ·) hjoined.symm

/-! ### The steps of a statement -/

/-- What a trace is made in that begins when the store is in a given state. -/
def settingAt (limits : Limits) (met : σ) : Setting where
  store := console.engine.answer met
  limits := limits
  clock := console.clock met

/-- The steps are those of a trace that begins now, if the statement can be traced. -/
theorem traceSteps_eq (s : Session σ) (sql : String) :
    traceSteps console s sql =
      (Trace.outcome (settingAt console s.preferences.limits s.store) sql).1.toOption.getD [] := by
  rw [traceSteps, settingAt]
  cases (Trace.outcome _ sql).1 with
  | ok steps => rfl
  | error cause => rfl

end Session

end QueryTrace

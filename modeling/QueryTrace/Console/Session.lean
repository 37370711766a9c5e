/-
Sessions at the console.

Lines of statements are collected until one of them ends in a semicolon; then each statement is
traced, executed, and, if the user wishes, shown step by step.  A line that begins with a point is
a command, unless a statement has been begun.

* `Session.feed` takes one line, and `Session.run` a whole input;
* `Session.perform_store` — only opening and reading a file have to do with the store at all.

Design notes: the store is an `Engine` over states of any type, so that the states can keep
whatever one wishes to know of what was executed, and the clock of a trace depends on the state so
that no two traces need to take the same time.  All that a session writes is part of its `Reply`.
-/
import QueryTrace.Console.Command
import QueryTrace.Console.Cursor
import QueryTrace.DataDir
import QueryTrace.Drawing.Table
import QueryTrace.Json.Model
import QueryTrace.Json.Writer
import QueryTrace.Preferences
import QueryTrace.Script
import QueryTrace.Statement.Printer
import QueryTrace.Statement.Remark
import QueryTrace.Text.Lines
import QueryTrace.Trace.Basic

namespace QueryTrace

/-- A store that executes statements. -/
structure Engine (σ : Type) where
  /-- The results of a statement. -/
  answer : σ → Catalogue
  /-- The state after a statement was executed. -/
  next : σ → String → σ
  tableNames : σ → Except String (List String)
  /-- The statements that the tables were created with. -/
  schema : σ → Except String (List String)
  /-- The store at a path, or an empty one. -/
  openStore : Option String → Except String σ

/-- What a session depends on. -/
structure Console (σ : Type) where
  engine : Engine σ
  /-- Lays out a statement for the reader. -/
  format : String → String
  /-- The text of a file, or why it cannot be read. -/
  fileText : String → Except String String
  /-- The clock of the trace that begins when the store is in a given state. -/
  clock : σ → Nat → Nat := fun _ _ => 0
  colour : Bool := false
  prompt : Bool := false

/-- The state of a session. -/
structure Session (σ : Type) where
  store : σ
  preferences : Preferences
  /-- The steps of the last statement. -/
  cursor : Cursor := {}
  /-- The lines of a statement that has not ended. -/
  pending : String := ""

/-- What comes of an action: the session behind it, and the text it has written. -/
structure Reply (σ : Type) where
  session : Session σ
  text : String := ""
  /-- Does the session end? -/
  exit : Bool := false

namespace Session

variable {σ : Type}

/-- A line of its own. -/
def line (text : String) : String :=
  text ++ "\n"

/-- A complaint on a line of its own. -/
def complaint (message : String) : String :=
  line ("Error: " ++ message)

/-! ### Statements -/

/-- The steps of a statement; a statement that cannot be traced has none. -/
def traceSteps (console : Console σ) (s : Session σ) (sql : String) : List Step :=
  let setting : Setting :=
    { store := console.engine.answer s.store, limits := s.preferences.limits,
      clock := console.clock s.store }
  match (Trace.outcome setting sql).1 with
  | .ok steps => steps
  | .error _ => []

/-- The results of a statement, or the complaint of the store. -/
def resultText (answer : Except String (List Table)) : String :=
  match answer with
  | .ok tables => String.join (tables.map fun t => line (Drawing.drawResult t))
  | .error message => complaint message

/-- All steps of a cursor, one after another. -/
def stepsText (colour : Bool) (c : Cursor) : String :=
  String.join ((Drawing.drawSteps colour c.steps).map line)

/-- Traces a statement and executes it. -/
def runStatement (console : Console σ) (s : Session σ) (sql : String) : Reply σ :=
  let cursor := Cursor.ofSteps (traceSteps console s sql)
  { session := { s with cursor, store := console.engine.next s.store sql }
    text := resultText (console.engine.answer s.store sql) ++
      if s.preferences.visualize then stepsText console.colour cursor else "" }

/-- Does several things one after another. -/
def inTurn {α : Type} (act : Session σ → α → Reply σ) (s : Session σ) : List α → Reply σ
  | [] => { session := s }
  | x :: xs =>
    let first := act s x
    let more := inTurn act first.session xs
    { more with text := first.text ++ more.text }

/-- Runs the statements of a script. -/
def runScript (console : Console σ) (s : Session σ) (script : String) : Reply σ :=
  inTurn (runStatement console) s (Script.statements script)

/-! ### Commands -/

/-- The step at the position of the cursor. -/
def stepText (colour : Bool) (c : Cursor) : String :=
  match c.current with
  | some step => line (Drawing.drawStep colour step c.position c.steps.length)
  | none => line "No steps. Run a SELECT with a FROM clause first."

/-- Moves the cursor and shows where it is. -/
def moveTo (console : Console σ) (s : Session σ) (cursor : Cursor) : Reply σ :=
  { session := { s with cursor }, text := stepText console.colour cursor }

/-- The headings of the steps, with a mark at the position of the cursor. -/
def listSteps (c : Cursor) : String :=
  if c.steps.isEmpty then line "No steps."
  else String.join (c.steps.zipIdx.map fun (step, i) =>
    line ((if i = c.position then ">" else " ") ++ " " ++ toString (i + 1) ++ ". " ++
      step.kind.title))

/-- A remark and what could be done about it. -/
def remarkText (r : Remark) : String :=
  let severity := match r.severity with
    | .info => "Info"
    | .warning => "Warning"
  line ("-- " ++ severity ++ ": " ++ r.message) ++
    match r.hint with
    | some hint => line ("--   " ++ hint)
    | none => ""

/-- A statement in full, with the remarks about it. -/
def explanation (format : String → String) (sql : String) : String :=
  match Statement.parse sql with
  | .ok statement =>
    line (format statement.print) ++ String.join (statement.remarks.map remarkText)
  | .error cause => complaint (Failure.malformed cause).message

/-- A list from the store, or its complaint. -/
def listing (show_ : List String → String) : Except String (List String) → String
  | .ok items => show_ items
  | .error message => complaint message

/-- Opens a store, and forgets the steps of the last statement. -/
def changeStore (console : Console σ) (s : Session σ) (path : Option String) : Reply σ :=
  match console.engine.openStore path with
  | .ok store => { session := { s with store, cursor := {} } }
  | .error message => { session := s, text := complaint message }

/-- Runs the statements in a file. -/
def runFile (console : Console σ) (s : Session σ) (path : String) : Reply σ :=
  match console.fileText path with
  | .ok script => runScript console s script
  | .error reason =>
    { session := s, text := complaint ("cannot read " ++ path ++ ": " ++ reason) }

/-- Carries out a command. -/
def perform (console : Console σ) (s : Session σ) (command : Command) : Reply σ :=
  let say (text : String) : Reply σ := { session := s, text }
  match command with
  | .exit => { session := s, exit := true }
  | .help => say (line Command.helpText)
  | .tables => say (listing (fun names => line ("  ".intercalate names))
      (console.engine.tableNames s.store))
  | .schema => say (listing (fun statements =>
      String.join (statements.map fun sql => line (console.format sql)))
      (console.engine.schema s.store))
  | .openStore path => changeStore console s path
  | .read (some path) => runFile console s path
  | .read none => say (line "Usage: .read PATH")
  | .visualize (some setting) =>
    { session := { s with preferences := { s.preferences with visualize := setting } } }
  | .visualize none => say (line "Usage: .visualize on|off")
  | .steps => say (listSteps s.cursor)
  | .next => moveTo console s s.cursor.next
  | .prev => moveTo console s s.cursor.prev
  | .step (some n) => moveTo console s (s.cursor.seek (n - 1))
  | .step none => say (line "Usage: .step N")
  | .explain sql => say (explanation console.format sql)
  | .json => say (line (Json.print Json.pretty (.array (s.cursor.steps.map Step.toJson))))
  | .unknown name => say (line ("Unknown command: " ++ name ++ ". Try .help"))

theorem perform_store {console : Console σ} {s : Session σ} {command : Command}
    (hopen : ∀ path, command ≠ .openStore path) (hread : ∀ path, command ≠ .read (some path)) :
    (perform console s command).session.store = s.store := by
  unfold perform
  split <;> simp_all [moveTo]

/-! ### Lines -/

/-- Is the line a command, given what was collected before? -/
def isCommand (pending input : String) : Bool :=
  Text.isBlankText pending.toList && (Text.trimStart input.toList).head? == some '.'

/-- Does a statement end with the line? -/
def endsStatement (input : String) : Bool :=
  (Text.trimEnd input.toList).getLast? == some ';'

/-- Takes one line. -/
def feed (console : Console σ) (s : Session σ) (input : String) : Reply σ :=
  if isCommand s.pending input then
    perform console { s with pending := "" } (Command.parse (Text.trimText input))
  else
    let collected := s.pending ++ line input
    if endsStatement input then runScript console { s with pending := "" } collected
    else { session := { s with pending := collected } }

/-- The words that ask for the next line. -/
def promptText (console : Console σ) (s : Session σ) : String :=
  if console.prompt then if s.pending.isEmpty then toolName ++ "> " else "   ...> " else ""

/-- Runs what was collected when the input ends. -/
def finish (console : Console σ) (s : Session σ) : Reply σ :=
  let rest := { s with pending := "" }
  if Text.isBlankText s.pending.toList then { session := rest }
  else runScript console rest s.pending

/-- Takes lines until there are no more or the session ends. -/
def feedAll (console : Console σ) (s : Session σ) : List String → Reply σ
  | [] =>
    let last := finish console s
    { last with text := promptText console s ++ last.text }
  | input :: inputs =>
    let first := feed console s input
    -- whoever leaves in the middle of a statement does not want it run
    let more := if first.exit then { session := first.session, exit := true }
      else feedAll console first.session inputs
    { more with text := promptText console s ++ first.text ++ more.text }

/-- Takes a whole input. -/
def run (console : Console σ) (s : Session σ) (input : String) : Reply σ :=
  feedAll console s ((Text.lines input.toList).map String.ofList)

end Session

end QueryTrace

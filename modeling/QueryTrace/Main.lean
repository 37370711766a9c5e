/-
The command line.

The tool reads lines from its input and writes what the session replies.  Its argument, or else
the preferences, may name a file of tables to begin with.

Design notes: a session is a function of what it is given, so the one file that a line asks for is
read before the line is fed.  Statements are shown as they are printed, without further layout,
and the clock of a session stands still.
-/
import QueryTrace.Console.Shelf

namespace QueryTrace

/-- Why a file could not be read. -/
def reasonOf : IO.Error → String
  | .noFileOrDirectory .. => "No such file or directory (os error 2)"
  | .inappropriateType .. => "Is a directory (os error 21)"
  | e => toString e

/-- The text of a file, or why it cannot be read. -/
def textOfFile (path : String) : IO (Except String String) := do
  try
    return .ok (← IO.FS.readFile path)
  catch e =>
    return .error (reasonOf e)

/-- The path of the file that a line asks for. -/
def pathAskedFor (pending input : String) : Option String :=
  if Session.isCommand pending input then
    match Command.parse (Text.trimText input) with
    | .read path => path
    | .openStore path => path
    | _ => none
  else none

/-- The preferences in force. -/
def loadPreferences : IO Preferences := do
  let dir := DataDir.dataDir (← IO.getEnv (environmentName "DATA_DIR")) (← IO.getEnv "HOME")
  let file ← textOfFile (DataDir.preferencesFile dir)
  return Preferences.load file.toOption (← IO.getEnv (environmentName "MAX_PRODUCT_ROWS"))
    (← IO.getEnv (environmentName "TIME_BUDGET_MS"))

/-- The console with the one file that a line may ask for. -/
def consoleFor (colour prompt : Bool) (path : Option String) : IO (Console Shelf) := do
  let asked ← match path with
    | some path => textOfFile path
    | none => pure (.error (reasonOf (.noFileOrDirectory "" 2 "")))
  return { engine := Shelf.engine fun _ => asked, format := id, fileText := fun _ => asked, colour,
           prompt }

/-- A line of the input without its end, or nothing at the end of the input. -/
def nextLine (input : IO.FS.Stream) : IO (Option String) := do
  let text ← input.getLine
  return (Text.lines text.toList).head?.map String.ofList

/-- Takes lines until there are no more or the session ends. -/
partial def converse (input output : IO.FS.Stream) (colour prompt : Bool)
    (s : Session Shelf) : IO Unit := do
  let console ← consoleFor colour prompt none
  output.putStr (Session.promptText console s)
  output.flush
  match ← nextLine input with
  | none => output.putStr (Session.finish console s).text
  | some line =>
    let console ← consoleFor colour prompt (pathAskedFor s.pending line)
    let reply := Session.feed console s line
    output.putStr reply.text
    unless reply.exit do converse input output colour prompt reply.session

end QueryTrace

open QueryTrace in
/-- Starts a session. -/
def main (arguments : List String) : IO UInt32 := do
  let input ← IO.getStdin
  let output ← IO.getStdout
  let preferences ← loadPreferences
  let store ← match arguments.head?.or preferences.database with
    | some path => do pure ((← textOfFile path) >>= Shelf.parse)
    | none => pure (.ok {})
  match store with
  | .error reason =>
    (← IO.getStderr).putStrLn ("Error: " ++ reason)
    return 1
  | .ok store =>
    converse input output (← output.isTty) (← input.isTty) { store, preferences }
    return 0

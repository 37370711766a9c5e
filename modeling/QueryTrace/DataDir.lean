/-
Where the tool keeps its files.

The data directory is the one that is asked for, if its path is absolute, or else a hidden
directory in the home directory.

* `DataDir.dataDir` is that directory, and `DataDir.preferencesFile` a file in it.

Design notes: paths are texts.  Joining puts one slash between its parts unless there is one, and
nothing else about a path is ever changed.
-/
namespace QueryTrace

/-- The name that the tool answers to. -/
def toolName : String := "sqlstep"

/-- The setting of the environment for something the tool can be told. -/
def environmentName (topic : String) : String :=
  toolName.toUpper ++ "_" ++ topic

namespace DataDir

/-- Does the path begin at the root? -/
def isAbsolute (path : String) : Bool :=
  path.toList.head? == some '/'

/-- The path of a name within a directory. -/
def join (dir name : String) : String :=
  if dir.isEmpty || dir.toList.getLast? == some '/' then dir ++ name else dir ++ "/" ++ name

/-- The directory for a tool that was given no directory. -/
def fallback (home : Option String) : String :=
  match home with
  | some dir => join dir ("." ++ toolName)
  | none => "." ++ toolName

/-- The data directory, from the directory asked for and the home directory. -/
def dataDir (asked home : Option String) : String :=
  match asked with
  | some path => if isAbsolute path then path else fallback home
  | none => fallback home

/-- The file of the preferences. -/
def preferencesFile (dir : String) : String :=
  join dir "preferences.json"

end DataDir

end QueryTrace

import Peephole.Compile
import Peephole.Files.FileSystem

/-!
# Host — where compilations run

A host has files, an output and a log.  What the program does with files is written once for every
host.  `Workspace` is the host that is a plain value: what happens in it can be computed and
reasoned about.  What is written there is safe at once, so nothing is waited for.
-/

namespace Peephole

/-- An entry of the log. -/
inductive Event where
  | noticed (notice : Notice)
  | failed (error : CompileError)
  | written (path : String)
  /-- A temporary file could not be removed. -/
  | temporaryKept (path : String) (cause : OsError)
  | sourcesFound (count : Nat) (directory : String)
  | noSources
  | batchFinished (compiled total : Nat)

namespace Event

/-- How much an event matters. -/
def level : Event → Level
  | noticed notice => notice.level
  | failed _ => .error
  | written _ => .info
  | temporaryKept .. => .warn
  | sourcesFound .. => .debug
  | noSources => .error
  | batchFinished .. => .info

/-- The wording of an event. -/
def message : Event → String
  | noticed notice => notice.message
  | failed error => error.message
  | written path => "Successfully wrote to " ++ path
  | temporaryKept path cause => "Couldn't remove " ++ path ++ ": " ++ cause.message
  | sourcesFound count directory =>
    "Found " ++ toString count ++ " pattern files in " ++ directory
  | noSources => "No pattern files found"
  | batchFinished compiled total =>
    "Translated " ++ toString compiled ++ " of " ++ toString total ++ " pattern files"

end Event

/-- Files, an output and a log. -/
class Host (m : Type → Type) where
  readText (path : String) : m (Except OsError String)
  /-- Makes a file without contents, new or in place of one that is there. -/
  createFile (path : String) : m (Except OsError Unit)
  /-- Writes the text of a file that was just made.  If that fails, the file may hold part of it. -/
  writeText (path text : String) : m (Except OsError Unit)
  /-- Waits until what was written to a file is safe. -/
  sync (path : String) : m (Except OsError Unit)
  rename (source destination : String) : m (Except OsError Unit)
  removeFile (path : String) : m (Except OsError Unit)
  stat (path : String) : m (Except OsError FileType)
  /-- The names in a directory, in any order. -/
  list (path : String) : m (Except OsError (List String))
  makeDirectory (path : String) : m (Except OsError Unit)
  print (text : String) : m Unit
  log (event : Event) : m Unit

/-- Logs the notices of a computation and gives its result. -/
def Host.run {m : Type → Type} [Monad m] [Host m] {ε α : Type} (logged : Logged ε α) :
    m (Except ε α) := do
  logged.notices.forM fun notice => log (.noticed notice)
  return logged.result

/-! ## Workspaces -/

/-- A host as a value. -/
structure Workspace where
  files : FileSystem
  /-- What was printed. -/
  output : String
  /-- What was logged, in order. -/
  events : List Event

namespace Workspace

/-- A workspace in which nothing has happened yet. -/
def ofFiles (files : FileSystem) : Workspace := ⟨files, "", []⟩

/-- Asks something of the files. -/
def query {α : Type} (ask : FileSystem → α) : StateM Workspace α := do
  return ask (← get).files

/-- Does something to the files that may fail halfway. -/
def attempt (act : FileSystem → Except OsError Unit × FileSystem) :
    StateM Workspace (Except OsError Unit) :=
  fun workspace => ((act workspace.files).1, { workspace with files := (act workspace.files).2 })

/-- Changes the files, unless the file system refuses. -/
def change (act : FileSystem → Except OsError FileSystem) :
    StateM Workspace (Except OsError Unit) :=
  fun workspace =>
    match act workspace.files with
    | .ok files => (.ok (), { workspace with files })
    | .error cause => (.error cause, workspace)

instance : Host (StateM Workspace) where
  readText path := query (·.readText path)
  createFile path := change (·.createFile path)
  writeText path text := attempt (·.fill path text.toUTF8)
  sync _ := return .ok ()
  rename source destination := change (·.rename source destination)
  removeFile path := change (·.removeFile path)
  stat path := query (·.stat path)
  list path := query (·.list path)
  makeDirectory path := change (·.makeDirectory path)
  print text := modify fun workspace => { workspace with output := workspace.output ++ text }
  log event := modify fun workspace => { workspace with events := workspace.events ++ [event] }

end Workspace

end Peephole

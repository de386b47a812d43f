import Peephole.CommandLine

/-!
# Main — the program on a real system

The file system, standard output and standard error of the process as a host.  Only errors are
shown.
-/

namespace Peephole

/-- The number of a refusal.  Some calls of the system give it with the sign turned. -/
def refusalNumber (code : UInt32) : UInt32 := if code < 0x80000000 then code else -code

/-- A refusal of the system. -/
def OsError.ofSystem : IO.Error → OsError
  | .noFileOrDirectory .. => .notFound
  | .alreadyExists .. => .alreadyExists
  | .resourceBusy .. => .busy
  | .resourceExhausted name code details =>
    if refusalNumber code = 28 then .noSpace
    else .other (toString (IO.Error.resourceExhausted name code details))
  | .inappropriateType name code details =>
    if refusalNumber code = 20 then .notADirectory
    else if refusalNumber code = 21 then .isADirectory
    else .other (toString (IO.Error.inappropriateType name code details))
  | .invalidArgument name code details =>
    if refusalNumber code = 36 then .nameTooLong
    else .other (toString (IO.Error.invalidArgument name code details))
  | error => .other (toString error)

/-- Runs an action of the system, whose refusal is a result. -/
def attempt {α : Type} (action : IO α) : IO (Except OsError α) := do
  try return .ok (← action)
  catch error => return .error (.ofSystem error)

/-- What a path leads to in the system, as the root of an entry. -/
def systemEntry (path : String) : IO.FS.DirEntry := ⟨path, ""⟩

/-- The text of a file of the system. -/
def readSystemText (path : String) : IO (Except OsError String) := do
  match ← attempt (IO.FS.readBinFile path) with
  | .error cause => return .error cause
  | .ok contents =>
    match String.fromUTF8? contents with
    | some text => return .ok text
    | none => return .error .notText

instance : Host IO where
  readText := readSystemText
  createFile path := attempt (IO.FS.writeFile path "")
  writeText path text := attempt (IO.FS.withFile path .append (·.putStr text))
  sync path := attempt (IO.FS.withFile path .append (·.flush))
  rename source destination := attempt (IO.FS.rename source destination)
  removeFile path := attempt (IO.FS.removeFile path)
  stat path := attempt do
    let metadata ← (systemEntry path).root.metadata
    return if metadata.type matches .dir then .directory else .file
  list path := attempt do
    let entries ← (systemEntry path).root.readDir
    return entries.toList.map (·.fileName)
  makeDirectory path := attempt (IO.FS.createDir path)
  print text := IO.print text
  log event := do
    if event.level = .error then IO.eprintln event.message

end Peephole

/-- Runs the program and gives its exit code. -/
def main (arguments : List String) : IO UInt32 := do
  let exitCode ←
    match Peephole.CommandLine.ofArguments arguments with
    | .error error =>
      IO.eprintln error.message
      pure Peephole.ExitCode.usage
    | .ok arguments => Peephole.CommandLine.run arguments
  return exitCode.toNat.toUInt32

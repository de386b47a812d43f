import Peephole.Host

/-!
# Batch — compiling files, one after the other

A C file is written beside its destination first and then moved there, so a failure leaves no half
of it (`saveFile`).  A batch goes on after a file that fails and sums up how many did.
-/

namespace Peephole

/-! ## Destinations -/

/-- Where the code of each file goes. -/
inductive Target where
  /-- To the output. -/
  | stdout
  /-- Next to the pattern file. -/
  | nextToSource
  | directory (path : String)
deriving DecidableEq, Repr

/-- The file the code of `source` is written to, if any. -/
def Target.destination? (target : Target) (source : String) : Option String :=
  let generated := Path.withExtension source "c"
  match target with
  | stdout => none
  | nextToSource => some generated
  | directory path =>
    match Path.fileName? generated with
    | some name => some (Path.join path name)
    | none => some generated

/-! ## Exit codes -/

/-- How a run of the program ended. -/
inductive ExitCode where
  | ok
  | usage
  | dataError
  | noInput
  | cannotCreate
  | ioError
deriving DecidableEq, Repr

/-- The number of an exit code. -/
def ExitCode.toNat : ExitCode → Nat
  | ok => 0
  | usage => 2
  | dataError => 65
  | noInput => 66
  | cannotCreate => 73
  | ioError => 74

/-- How the files of a batch fared. -/
structure Summary where
  compiled : Nat
  dataErrors : Nat
  ioErrors : Nat
deriving DecidableEq, Repr

namespace Summary

/-- The summary of no file. -/
def empty : Summary := ⟨0, 0, 0⟩

/-- The number of files. -/
def total (summary : Summary) : Nat := summary.compiled + summary.dataErrors + summary.ioErrors

/-- The exit code of a batch.  Errors in pattern files go before those of the file system. -/
def exitCode (summary : Summary) : ExitCode :=
  if summary.total = 0 then .noInput
  else if 0 < summary.dataErrors then .dataError
  else if 0 < summary.ioErrors then .ioError
  else .ok

/-- Counts one more file. -/
def add (summary : Summary) : Except CompileError Unit → Summary
  | .ok () => { summary with compiled := summary.compiled + 1 }
  | .error error =>
    if error.isDataError then { summary with dataErrors := summary.dataErrors + 1 }
    else { summary with ioErrors := summary.ioErrors + 1 }

end Summary

/-! ## Files -/

section

variable {m : Type → Type} [Monad m] [Host m]

/-- Compiles a pattern file. -/
def compileFile (config : Config) (path : String) : m (Except CompileError GeneratedFile) := do
  match ← Host.readText path with
  | .error cause => return .error (.io path cause)
  | .ok source => Host.run (compileText config source (Path.stem path) path)

/-- Writes a text to a temporary file and moves that to its destination, up to the first step that
fails. -/
def writeThrough (temporary destination text : String) : m (Except OsError Unit) :=
  ExceptT.run do
    ExceptT.mk (Host.createFile temporary)
    ExceptT.mk (Host.writeText temporary text)
    ExceptT.mk (Host.sync temporary)
    ExceptT.mk (Host.rename temporary destination)

/-- Removes a temporary file, if it is there. -/
def discardTemporary (temporary : String) : m Unit := do
  match ← Host.stat temporary with
  | .error _ => return
  | .ok _ =>
    match ← Host.removeFile temporary with
    | .ok () => return
    | .error cause => Host.log (.temporaryKept temporary cause)

/-- Compiles a pattern file and writes its code. -/
def saveFile (config : Config) (source destination : String) :
    m (Except CompileError GeneratedFile) := do
  match ← compileFile config source with
  | .error error => return .error error
  | .ok file =>
    let temporary := destination ++ ".tmp"
    match ← writeThrough temporary destination file.code with
    | .ok () =>
      Host.log (.written destination)
      return .ok file
    | .error cause =>
      discardTemporary temporary
      return .error (.io destination cause)

/-- Compiles a pattern file to where the target says. -/
def compileTo (config : Config) (target : Target) (source : String) :
    m (Except CompileError Unit) := do
  match target.destination? source with
  | some destination =>
    let result ← saveFile config source destination
    return result.map fun _ => ()
  | none =>
    match ← compileFile config source with
    | .error error => return .error error
    | .ok file =>
      Host.print file.code
      return .ok ()

/-- Compiles pattern files in order, counting on from `summary`. -/
def compileEach (config : Config) (target : Target) (summary : Summary) :
    List String → m Summary
  | [] => return summary
  | source :: sources => do
    let result ← compileTo config target source
    if let .error error := result then Host.log (.failed error)
    compileEach config target (summary.add result) sources

/-- Compiles pattern files in order and sums up. -/
def batch (config : Config) (target : Target) (sources : List String) : m Summary := do
  let summary ← compileEach config target .empty sources
  Host.log (.batchFinished summary.compiled summary.total)
  return summary

end

end Peephole

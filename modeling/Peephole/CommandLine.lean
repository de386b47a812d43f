import Peephole.Batch
import Peephole.Discovery

/-!
# CommandLine — the program as it is called

    [-o DIR | --output-dir DIR] [--preamble FILE] [--registration-macro NAME]
    [--extension EXT] [--stdout] [--] PATH…

Options and paths mix freely; after `--` everything is a path.  A value is the next argument or is
attached, as in `--extension=txt` and `-oDIR`; the next argument is no value if it looks like an
option itself.  Options with a value are given once.
-/

namespace Peephole

namespace CommandLine

/-- An option that takes a value. -/
inductive ValueOption where
  | outputDir
  | preamble
  | registrar
  | extension
deriving DecidableEq, Repr

/-- The name of an option, after its dashes. -/
def ValueOption.name : ValueOption → String
  | outputDir => "output-dir"
  | preamble => "preamble"
  | registrar => "registration-macro"
  | extension => "extension"

/-- The option of a name that takes a value. -/
def ValueOption.ofName? (name : String) : Option ValueOption :=
  [outputDir, preamble, registrar, extension].find? (·.name == name)

/-- A call that cannot be understood. -/
inductive UsageError where
  | unknownOption (argument : String)
  | missingValue (option : ValueOption)
  | repeatedOption (option : ValueOption)
  | unexpectedValue (argument : String)
  | missingPath
deriving DecidableEq, Repr

/-- The wording of a usage error. -/
def UsageError.message : UsageError → String
  | unknownOption argument => "unknown option '" ++ argument ++ "'"
  | missingValue option => "option '--" ++ option.name ++ "' needs a value"
  | repeatedOption option => "option '--" ++ option.name ++ "' is given twice"
  | unexpectedValue argument => "option '--stdout' takes no value: '" ++ argument ++ "'"
  | missingPath => "no pattern files or directories given"

/-- What the arguments say. -/
structure Arguments where
  paths : List String
  values : List (ValueOption × String)
  stdout : Bool

namespace Arguments

/-- What is known before the first argument. -/
def empty : Arguments := ⟨[], [], false⟩

/-- The value given for an option. -/
def value? (arguments : Arguments) (option : ValueOption) : Option String :=
  (arguments.values.find? (·.1 == option)).map (·.2)

/-- Notes the value of an option, which must not have one yet. -/
def setValue (arguments : Arguments) (option : ValueOption) (value : String) :
    Except UsageError Arguments :=
  if (arguments.value? option).isSome then .error (.repeatedOption option)
  else .ok { arguments with values := arguments.values ++ [(option, value)] }

end Arguments

/-- An argument by its looks. -/
inductive Argument where
  /-- `--` -/
  | escape
  /-- `--name` or `--name=value` -/
  | long (name : String) (value : Option String)
  /-- `-x` and what follows the letter. -/
  | short (letter : Char) (attached : List Char)
  | plain (text : String)

/-- Tells options from other arguments.  A single dash is no option. -/
def Argument.ofText (text : String) : Argument :=
  match text.toList with
  | ['-', '-'] => .escape
  | '-' :: '-' :: rest =>
    .long (String.ofList (rest.takeWhile (· ≠ '=')))
      (match rest.dropWhile (· ≠ '=') with
      | _ :: value => some (String.ofList value)
      | [] => none)
  | '-' :: letter :: attached => .short letter attached
  | _ => .plain text

/-- The value attached to a short option; an equals sign in front does not count. -/
def attachedValue? : List Char → Option String
  | [] => none
  | '=' :: value => some (String.ofList value)
  | value => some (String.ofList value)

mutual

/-- Reads arguments, after what others said. -/
def readArguments (read : Arguments) : List String → Except UsageError Arguments
  | [] => .ok read
  | text :: rest =>
    match Argument.ofText text with
    | .escape => .ok { read with paths := read.paths ++ rest }
    | .plain path => readArguments { read with paths := read.paths ++ [path] } rest
    | .long "stdout" none => readArguments { read with stdout := true } rest
    | .long "stdout" (some _) => .error (.unexpectedValue text)
    | .long name value =>
      match ValueOption.ofName? name, value with
      | none, _ => .error (.unknownOption text)
      | some option, some value => do readArguments (← read.setValue option value) rest
      | some option, none => readValue read option rest
    | .short letter attached =>
      if letter = 'o' then
        match attachedValue? attached with
        | some value => do readArguments (← read.setValue .outputDir value) rest
        | none => readValue read .outputDir rest
      else .error (.unknownOption text)

/-- Reads the value of an option off the next argument, and goes on. -/
def readValue (read : Arguments) (option : ValueOption) :
    List String → Except UsageError Arguments
  | [] => .error (.missingValue option)
  | text :: rest =>
    match Argument.ofText text with
    | .plain value => do readArguments (← read.setValue option value) rest
    | _ => .error (.missingValue option)

end

/-- Reads the arguments of a call. -/
def ofArguments (arguments : List String) : Except UsageError Arguments := do
  let read ← readArguments .empty arguments
  if read.paths.isEmpty then .error .missingPath else .ok read

/-- Where the code of each file goes. -/
def Arguments.target (arguments : Arguments) : Target :=
  if arguments.stdout then .stdout
  else
    match arguments.value? .outputDir with
    | some directory => .directory directory
    | none => .nextToSource

section

variable {m : Type → Type} [Monad m] [Host m]

/-- The settings, with the preamble read from its file. -/
def readConfig (arguments : Arguments) : m (Except CompileError Config) := do
  let config : Config :=
    { Config.default with
      registrar := (arguments.value? .registrar).getD Config.default.registrar }
  match arguments.value? .preamble with
  | none => return .ok config
  | some path =>
    match ← Host.readText path with
    | .error cause => return .error (.io path cause)
    | .ok preamble => return .ok { config with preamble }

/-- Makes a directory and, where they are missing, those above it, which come nearest first. -/
def makeDirectories : List String → m (Except OsError Unit)
  | [] => return .ok ()
  | directory :: above => do
    match ← Host.makeDirectory directory with
    | .ok () => return .ok ()
    | .error .notFound =>
      match ← makeDirectories above with
      | .error cause => return .error cause
      | .ok () => settle directory (← Host.makeDirectory directory)
    | .error cause => settle directory (.error cause)
where
  /-- Lets a refusal pass if the directory is there. -/
  settle (directory : String) : Except OsError Unit → m (Except OsError Unit)
    | .ok () => return .ok ()
    | .error cause => do
      if (← Host.stat directory) matches .ok .directory then return .ok ()
      else return .error cause

/-- Makes the directory that code goes to, if one is named. -/
def prepareOutput (arguments : Arguments) : m (Except CompileError Unit) := do
  match arguments.value? .outputDir with
  | none => return .ok ()
  | some directory =>
    match ← makeDirectories (Path.ancestors directory) with
    | .ok () => return .ok ()
    | .error cause => return .error (.io directory cause)

/-- Runs the program on arguments that have been understood. -/
def run (arguments : Arguments) : m ExitCode := do
  match ← readConfig arguments with
  | .error error =>
    Host.log (.failed error)
    return .ioError
  | .ok config =>
    match ← discover ((arguments.value? .extension).getD "pat") arguments.paths with
    | .error (path, cause) =>
      Host.log (.failed (.io path cause))
      return .noInput
    | .ok [] =>
      Host.log .noSources
      return .noInput
    | .ok sources =>
      match ← prepareOutput arguments with
      | .error error =>
        Host.log (.failed error)
        return .cannotCreate
      | .ok () =>
        let summary ← batch config arguments.target sources
        return summary.exitCode

/-- Runs the program on the arguments of a call. -/
def call (arguments : List String) : m ExitCode :=
  match ofArguments arguments with
  | .error _ => return .usage
  | .ok arguments => run arguments

end

end CommandLine

end Peephole

/-!
# Files/Path — names in a file system

A path is a text of parts between slashes.  Slashes and `.` parts at its end do not count, so the
file name of `d/a.pat/.` is `a.pat`; `.`, `..` and the empty path have none.  A file name is a stem
and, after its last dot, an extension; a dot at the front starts no extension.

Paths are texts: those that are no UTF-8, whose stems and extensions a system shows with replacement
characters, are left out.
-/

namespace Peephole.Path

/-- A path with its file name set apart. -/
structure Cut where
  /-- What stands before the file name. -/
  before : String
  name : String
  /-- Slashes and `.` parts after it. -/
  after : String
deriving DecidableEq, Repr

/-- Drops slashes and `.` parts; the characters of the path come last first. -/
def dropEnd : List Char → List Char
  | '/' :: rest => dropEnd rest
  | '.' :: '/' :: rest => dropEnd rest
  | rest => rest

/-- Sets the file name of a path apart, if it has one. -/
def cut? (path : String) : Option Cut :=
  let reversed := path.toList.reverse
  let trimmed := dropEnd reversed
  let name := String.ofList (trimmed.takeWhile (· ≠ '/')).reverse
  if name = "" ∨ name = "." ∨ name = ".." then none
  else some {
    before := String.ofList (trimmed.dropWhile (· ≠ '/')).reverse
    name
    after := String.ofList (reversed.take (reversed.length - trimmed.length)).reverse }

/-- The stem of a file name, and its extension. -/
def splitName (name : String) : String × Option String :=
  let reversed := name.toList.reverse
  match reversed.dropWhile (· ≠ '.') with
  | _ :: stem =>
    if stem.isEmpty then (name, none)
    else
      (String.ofList stem.reverse, some (String.ofList (reversed.takeWhile (· ≠ '.')).reverse))
  | [] => (name, none)

/-- The file name of a path, if it has one. -/
def fileName? (path : String) : Option String := (cut? path).map Cut.name

/-- The stem of the file name, empty without one. -/
def stem (path : String) : String := ((fileName? path).map fun name => (splitName name).1).getD ""

/-- The extension of the file name, if it has one. -/
def extension? (path : String) : Option String :=
  (fileName? path).bind fun name => (splitName name).2

/-- Gives the file name another extension; what stands after the name goes. -/
def setExtension (path extension : String) : String :=
  match cut? path with
  | none => path
  | some cut => cut.before ++ (splitName cut.name).1 ++ "." ++ extension

/-- Removes the extension of a path that ends in it, and leaves its dot. -/
def dropExtension (path : String) : String :=
  match cut? path with
  | none => path
  | some cut =>
    match (splitName cut.name).2 with
    | some _ => if cut.after = "" then cut.before ++ (splitName cut.name).1 ++ "." else path
    | none => path

/-- The path with another extension.  The old one goes first, so that `..x`, of which `..` is left,
stays without. -/
def withExtension (path extension : String) : String := setExtension (dropExtension path) extension

/-- A name inside a directory. -/
def join (directory name : String) : String :=
  if directory = "" ∨ directory.toList.getLast? = some '/' then directory ++ name
  else directory ++ "/" ++ name

/-! ## Parts -/

/-- The parts of a path between its slashes. -/
def splitParts : List Char → List Char → List String
  | part, [] => [String.ofList part.reverse]
  | part, c :: cs =>
    if c = '/' then String.ofList part.reverse :: splitParts [] cs else splitParts (c :: part) cs

/-- The parts of a path that say something. -/
def parts (path : String) : List String := (splitParts [] path.toList).filter (· ≠ "")

/-- Whether a path asks for a directory by a slash at its end. -/
def endsInSlash (path : String) : Bool := path.toList.getLast? = some '/'

/-- Whether a path starts at the root. -/
def isAbsolute (path : String) : Bool := path.toList.head? = some '/'

/-! ## Ancestors -/

/-- Whether a path ends in the name of a part; its characters come last first. -/
def endsInPart : List Char → Bool
  | [] => false
  | '/' :: _ => false
  | '.' :: '/' :: _ => false
  | _ => true

/-- The paths that a path goes through, the longest first; all characters come last first. -/
def above : List Char → List (List Char)
  | [] => []
  | c :: rest => if c = '/' && endsInPart rest then rest :: above rest else above rest

/-- A path and those of the directories above it, the nearest first.  The path comes as it is, and
the others end in the name of a part.  The root and the empty path have none. -/
def ancestors (path : String) : List String :=
  match dropEnd path.toList.reverse with
  | [] => []
  | trimmed => path :: (above trimmed).map fun reversed => String.ofList reversed.reverse

end Peephole.Path

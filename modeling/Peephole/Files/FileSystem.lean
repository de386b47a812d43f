import Peephole.Files.OsError
import Peephole.Files.Path

/-!
# Files/FileSystem — files and directories as a value

A file system maps places to files and directories.  A place is the list of names that leads to it
from the root.  Every operation finds its place first (`locate`): from the root or the working
directory, each part of a path but the last must lead to a directory, `.` stays and `..` goes up.
A name has at most 255 bytes and a path less than 4096.

The operations are those of a POSIX system without links, for a user who may do anything.  A file is
made first (`createFile`) and then filled (`fill`), for which there may not be room enough: the file
is there then, with part of its contents.

Names are texts.  A system also takes names that are no UTF-8, which are shown with replacement
characters; there are none here.
-/

namespace Peephole

/-- What stands at a place. -/
inductive Entry where
  | file (contents : ByteArray)
  | directory

/-- What sort of thing stands at a place. -/
inductive FileType where
  | file
  | directory
deriving DecidableEq, Repr

/-- The sort of an entry. -/
def Entry.type : Entry → FileType
  | file _ => .file
  | directory => .directory

/-- The bytes that an entry takes up. -/
def Entry.size : Entry → Nat
  | file contents => contents.size
  | directory => 0

/-- Files and directories by their places. -/
structure FileSystem where
  entries : List (List String × Entry)
  /-- The place where a path starts that does not start at the root. -/
  workingDirectory : List String
  /-- The most bytes that the files can hold together, if there is a limit. -/
  capacity : Option Nat := none

namespace FileSystem

/-- Nothing but a working directory, and the directories that lead to it. -/
def ofWorkingDirectory (place : List String) : FileSystem where
  entries := (List.range place.length).map fun above => (place.take (above + 1), .directory)
  workingDirectory := place

/-- What stands at a place. -/
def get? (files : FileSystem) (place : List String) : Option Entry :=
  match place with
  | [] => some .directory
  | place => (files.entries.find? (·.1 == place)).map (·.2)

/-- Puts an entry at a place, instead of what stands there. -/
def insert (files : FileSystem) (place : List String) (entry : Entry) : FileSystem :=
  { files with entries := files.entries.filter (·.1 != place) ++ [(place, entry)] }

/-- Clears a place. -/
def erase (files : FileSystem) (place : List String) : FileSystem :=
  { files with entries := files.entries.filter (·.1 != place) }

/-- Clears a place and all below it. -/
def eraseTree (files : FileSystem) (place : List String) : FileSystem :=
  { files with entries := files.entries.filter fun entry => !place.isPrefixOf entry.1 }

/-- What stands below the working directory, by the names that lead there from it. -/
def belowWorkingDirectory (files : FileSystem) : List (List String × Entry) :=
  files.entries.filterMap fun (place, entry) =>
    if files.workingDirectory.isPrefixOf place && place != files.workingDirectory then
      some (place.drop files.workingDirectory.length, entry)
    else none

/-! ## Finding places -/

/-- The most bytes a name can have. -/
def maxNameBytes : Nat := 255

/-- The most bytes a path can have. -/
def maxPathBytes : Nat := 4095

/-- Follows parts from a place. -/
def follow (files : FileSystem) : List String → List String → Except OsError (List String)
  | place, [] => .ok place
  | place, part :: parts =>
    match files.get? place with
    | none => .error .notFound
    | some (.file _) => .error .notADirectory
    | some .directory =>
      if part = "." then files.follow place parts
      else if part = ".." then files.follow place.dropLast parts
      else if maxNameBytes < part.utf8ByteSize then .error .nameTooLong
      else files.follow (place ++ [part]) parts

/-- The place a path leads to, where there may be nothing. -/
def locate (files : FileSystem) (path : String) : Except OsError (List String) :=
  if path.toList.contains '\x00' then .error .nulInPath
  else if maxPathBytes < path.utf8ByteSize then .error .nameTooLong
  else if path = "" then .error .notFound
  else files.follow (if Path.isAbsolute path then [] else files.workingDirectory) (Path.parts path)

/-- What a path leads to. -/
def lookup (files : FileSystem) (path : String) : Except OsError Entry := do
  match files.get? (← files.locate path) with
  | none => .error .notFound
  | some .directory => .ok .directory
  | some (.file contents) =>
    if Path.endsInSlash path then .error .notADirectory else .ok (.file contents)

/-! ## Operations -/

/-- The sort of thing a path leads to. -/
def stat (files : FileSystem) (path : String) : Except OsError FileType :=
  (files.lookup path).map Entry.type

/-- The text of a file. -/
def readText (files : FileSystem) (path : String) : Except OsError String := do
  match ← files.lookup path with
  | .directory => .error .isADirectory
  | .file contents =>
    match String.fromUTF8? contents with
    | some text => .ok text
    | none => .error .notText

/-- The names in a directory. -/
def list (files : FileSystem) (path : String) : Except OsError (List String) := do
  let place ← files.locate path
  match ← files.lookup path with
  | .file _ => .error .notADirectory
  | .directory =>
    return files.entries.filterMap fun entry =>
      if entry.1.dropLast = place then entry.1.getLast? else none

/-- Makes a file without contents, new or in place of one that is there. -/
def createFile (files : FileSystem) (path : String) : Except OsError FileSystem := do
  let place ← files.locate path
  if Path.endsInSlash path || files.get? place matches some .directory then
    .error .isADirectory
  else return files.insert place (.file .empty)

/-- The bytes that all files take up. -/
def used (files : FileSystem) : Nat :=
  files.entries.foldl (fun used entry => used + entry.2.size) 0

/-- The bytes that there is room for, if there is a limit. -/
def room? (files : FileSystem) : Option Nat := files.capacity.map (· - files.used)

/-- Gives a file its contents, or as much of them as there is room for: what came of it, and the
files then. -/
def fill (files : FileSystem) (path : String) (contents : ByteArray) :
    Except OsError Unit × FileSystem :=
  match files.lookup path, files.locate path with
  | .ok (.file _), .ok place =>
    match files.room? with
    | none => (.ok (), files.insert place (.file contents))
    | some room =>
      if contents.size ≤ room then (.ok (), files.insert place (.file contents))
      else (.error .noSpace, files.insert place (.file (contents.extract 0 room)))
  | .ok .directory, _ => (.error .isADirectory, files)
  | .error cause, _ | _, .error cause => (.error cause, files)

/-- Writes a whole file, new or anew, or leaves the files as they are. -/
def writeBytes (files : FileSystem) (path : String) (contents : ByteArray) :
    Except OsError FileSystem := do
  let created ← files.createFile path
  match created.fill path contents with
  | (.ok (), written) => return written
  | (.error cause, _) => .error cause

/-- Removes a file. -/
def removeFile (files : FileSystem) (path : String) : Except OsError FileSystem := do
  match ← files.lookup path with
  | .directory => .error .isADirectory
  | .file _ => return files.erase (← files.locate path)

/-- Whether a path ends in a part that names no entry of its own. -/
def endsInDots (path : String) : Bool :=
  match (Path.parts path).getLast? with
  | some part => part = "." || part = ".."
  | none => true

/-- Moves a file, over another file if need be. -/
def rename (files : FileSystem) (source destination : String) : Except OsError FileSystem := do
  let sourcePlace ← files.locate source
  let place ← files.locate destination
  if endsInDots destination then .error .busy
  else
    match ← files.lookup source with
    | .directory => .error .isADirectory
    | .file contents =>
      if Path.endsInSlash destination then .error .notADirectory
      else if files.get? place matches some .directory then .error .isADirectory
      else return (files.erase sourcePlace).insert place (.file contents)

/-- Makes a directory. -/
def makeDirectory (files : FileSystem) (path : String) : Except OsError FileSystem := do
  let place ← files.locate path
  if (files.get? place).isSome then .error .alreadyExists
  else return files.insert place .directory

end FileSystem

end Peephole

/-!
# Files/OsError — why the file system refuses

The wordings of the system come with the number of the error.
-/

namespace Peephole

/-- A refusal of the file system. -/
inductive OsError where
  | notFound
  | busy
  | alreadyExists
  | notADirectory
  | isADirectory
  /-- There is no room for all of a file. -/
  | noSpace
  /-- A path, or a name in it, is longer than the system takes. -/
  | nameTooLong
  /-- A path holds the character that ends texts inside the system. -/
  | nulInPath
  /-- The contents are no UTF-8 text. -/
  | notText
  /-- Any other, in its own words. -/
  | other (message : String)
deriving DecidableEq, Repr

/-- The wording of a refusal. -/
def OsError.message : OsError → String
  | notFound => "No such file or directory (os error 2)"
  | busy => "Device or resource busy (os error 16)"
  | alreadyExists => "File exists (os error 17)"
  | notADirectory => "Not a directory (os error 20)"
  | isADirectory => "Is a directory (os error 21)"
  | noSpace => "No space left on device (os error 28)"
  | nameTooLong => "File name too long (os error 36)"
  | nulInPath => "file name contained an unexpected NUL byte"
  | notText => "stream did not contain valid UTF-8"
  | other message => message

end Peephole

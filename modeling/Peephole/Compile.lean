import Peephole.Files.OsError
import Peephole.GeneratedFile
import Peephole.Grammar.SyntaxError

/-!
# Compile — from the text of a pattern file to its C file

A compilation fails for its text (a syntax error or a fault) or for the file system.  Either way
the error is told with the file it concerns.
-/

namespace Peephole

/-- Why a pattern file has no C file. -/
inductive CompileError where
  | io (path : String) (cause : OsError)
  | unreadable (file : String) (cause : SyntaxError)
  | fault (file : String) (cause : Fault)

namespace CompileError

/-- The wording of a compile error. -/
def message : CompileError → String
  | io path cause => path ++ ": " ++ cause.message
  | unreadable file cause => file ++ ": " ++ cause.message
  | fault file cause => file ++ ": " ++ cause.message

/-- Whether the pattern file is to blame, and not the file system. -/
def isDataError : CompileError → Bool
  | io .. => false
  | _ => true

end CompileError

/-- Compiles the text of a pattern file.  Errors call the file `label`. -/
def compileText (config : Config) (source stem label : String) :
    Logged CompileError GeneratedFile :=
  match parse source with
  | .error cause => Logged.ofExcept (.error (.unreadable label cause))
  | .ok program => (GeneratedFile.ofProgram config program stem).mapError (.fault label)

end Peephole

import Peephole.Host

/-!
# Response — compiling for a C caller

A C caller gets either the code with the names of its functions, or the text of an error.  C strings
end at a NUL character, so a text that holds one cannot be handed over, and NULs are taken out of
error texts.
-/

namespace Peephole

/-- What a C caller gets. -/
structure Response where
  codeText : Option String
  functionNames : List String
  errorText : Option String
deriving DecidableEq, Repr

/-- A text as a C string, if it can be one. -/
def toCString? (text : String) : Option String :=
  if text.toList.contains '\x00' then none else some text

/-- Compiles the text of a pattern file under the default settings. -/
def respond {m : Type → Type} [Monad m] [Host m] (source stem : String) : m Response := do
  match ← Host.run (compileText .default source stem stem) with
  | .ok file =>
    return {
      codeText := toCString? file.code
      functionNames := file.functionNames.filterMap toCString?
      errorText := none }
  | .error error =>
    Host.log (.failed error)
    return {
      codeText := none
      functionNames := []
      errorText := toCString? (String.ofList (error.message.toList.filter (· ≠ '\x00'))) }

end Peephole

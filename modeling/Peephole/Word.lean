/-!
# Word — the characters of names

Names in pattern files and in C are made of ASCII letters, digits and `_`.
-/

namespace Peephole

/-- A letter, a digit or `_`, within ASCII. -/
def isWordChar (c : Char) : Bool := c.isAlphanum || c == '_'

/-- Whether a text is a C identifier. -/
def isCIdentifier (text : String) : Bool :=
  match text.toList with
  | [] => false
  | c :: cs => (c.isAlpha || c == '_') && cs.all isWordChar

end Peephole

import Peephole.Grammar.Reader
import Peephole.Word

/-!
# Grammar/Lexeme — words, numbers and the space between them

A word is a longest run of letters, digits and `_`.  An identifier is a word that starts with a
letter and is not reserved; nothing else of the grammar asks where a word ends, so a reserved word
is taken as its characters, whatever follows them (`text`).

Between two tokens stand blanks and comments (`gap`).  A block comment without an end is no
comment: the gap stops before it.
-/

namespace Peephole

/-- The characters that separate tokens. -/
def isBlank (c : Char) : Bool := c == ' ' || c == '\t' || c == '\r' || c == '\n'

/-- The words that are no identifiers. -/
def reservedWords : List String := ["set", "pattern", "switch", "case", "default", "if", "else"]

/-! ## Scanning -/

/-- The text after a given start. -/
def dropStart : List Char → List Char → Option (List Char)
  | [], text => some text
  | _ :: _, [] => none
  | c :: start, d :: text => if c = d then dropStart start text else none

/-- The identifier at the front of a text. -/
def scanIdentifier (text : List Char) : Option (String × List Char) :=
  let word := text.takeWhile isWordChar
  match word with
  | [] => none
  | c :: _ =>
    if c.isAlpha && !reservedWords.contains (String.ofList word) then
      some (String.ofList word, text.dropWhile isWordChar)
    else none

/-- Splits the digits off the front of a text, which must have one. -/
def scanDigits (sign : List Char) (text : List Char) : Option (String × List Char) :=
  match text.takeWhile Char.isDigit with
  | [] => none
  | digits => some (String.ofList (sign ++ digits), text.dropWhile Char.isDigit)

/-- The integer at the front of a text, with its sign. -/
def scanInteger : List Char → Option (String × List Char)
  | '-' :: text => scanDigits ['-'] text
  | text => scanDigits [] text

/-- The wildcard `_`, where it is a whole word. -/
def scanWildcard : List Char → Option (Unit × List Char)
  | '_' :: [] => some ((), [])
  | '_' :: c :: text => if isWordChar c then none else some ((), c :: text)
  | _ => none

/-- The end of the text. -/
def scanEnd : List Char → Option (Unit × List Char)
  | [] => some ((), [])
  | _ :: _ => none

/-- What the space between two tokens is in the middle of. -/
inductive Gap where
  | blanks
  | lineComment
  /-- Keeps the text from the opening on, which remains if the comment has no end. -/
  | blockComment (opening : List Char)

/-- The text after blanks and comments. -/
def dropGap : Gap → List Char → List Char
  | .blanks, '/' :: '/' :: text => dropGap .lineComment text
  | .blanks, '/' :: '*' :: text => dropGap (.blockComment ('/' :: '*' :: text)) text
  | .blanks, c :: text => if isBlank c then dropGap .blanks text else c :: text
  | .blanks, [] => []
  | .lineComment, c :: text => if c = '\n' then dropGap .blanks text else dropGap .lineComment text
  | .lineComment, [] => []
  | .blockComment _, '*' :: '/' :: text => dropGap .blanks text
  | .blockComment opening, _ :: text => dropGap (.blockComment opening) text
  | .blockComment opening, [] => opening

/-! ## Readers -/

namespace Reader

/-- Reads exactly the given characters. -/
def text (expected : String) : Reader Unit :=
  silent fun source => (dropStart expected.toList source).map ((), ·)

/-- Reads the blanks and comments between two tokens, if there are any. -/
def gap : Reader Unit := silent fun source => some ((), dropGap .blanks source)

/-- Reads an identifier. -/
def identifier : Reader String := token .identifier scanIdentifier

/-- Reads an integer literal. -/
def integer : Reader String := token .integer scanInteger

/-- Reads `_`. -/
def wildcard : Reader Unit := token .wildcard scanWildcard

/-- Reads nothing, where the text ends. -/
def endOfInput : Reader Unit := token .endOfInput scanEnd

/-- Reads one of several operators, the first that fits. -/
def operator {α : Type} (symbol : Symbol) (spelling : α → String) (operators : List α) :
    Reader α :=
  token symbol fun source =>
    operators.findSome? fun op => (dropStart (spelling op).toList source).map (op, ·)

/-- Reads as many as stand one after the other, with gaps between them. -/
def series {α : Type} (item : Reader α) : Reader (List α) :=
  (do
    let first ← item
    let more ← many do
      gap
      item
    return first :: more)
  <|> return []

/-- Reads one or more with commas between them. -/
def commaSeparated {α : Type} (item : Reader α) : Reader (List α) := do
  let first ← item
  gap
  let more ← series do
    text ","
    gap
    item
  return first :: more

/-- Reads a list in parentheses, which may be empty. -/
def parenthesized {α : Type} (item : Reader α) : Reader (List α) := do
  text "("
  gap
  let items ← optional? (commaSeparated item)
  gap
  text ")"
  return items.getD []

/-- Reads what stands in braces, one after the other. -/
def braced {α : Type} (item : Reader α) : Reader (List α) := do
  text "\x7b"
  gap
  let items ← series item
  gap
  text "\x7d"
  return items

end Reader

end Peephole

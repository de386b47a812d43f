import Peephole.Grammar.Program

/-!
# Grammar/SyntaxError — reading pattern files, and where they stop making sense

A syntax error points at a character and lists what could have stood there:

     --> 1:30
      |
    1 | pattern p: i(a, b) --> { k(a++b); }
      |                              ^---
      |
      = expected product

Lines end at a line feed.  Columns count characters, and the line is shown without its carriage
returns.
-/

namespace Peephole

/-- A place in a text where a reading stopped. -/
structure SyntaxError where
  /-- Counted from 1. -/
  line : Nat
  /-- Counted from 1. -/
  column : Nat
  /-- The line, as shown. -/
  shown : List Char
  /-- What could have stood there. -/
  expected : List Symbol

namespace SyntaxError

/-- The error at the place that attempts are kept for. -/
def ofAttempts (source : List Char) (attempts : Attempts) : SyntaxError :=
  let before := source.take (source.length - attempts.left)
  let after := source.drop (source.length - attempts.left)
  let lineStart := (before.reverse.takeWhile (· ≠ '\n')).reverse
  let lineEnd := after.takeWhile (· ≠ '\n')
  { line := before.count '\n' + 1
    column := lineStart.length + 1
    shown := (lineStart ++ lineEnd).filter (· ≠ '\r')
    expected := Symbol.all.filter (attempts.symbols.contains ·) }

/-- Words as an enumeration: `a`, `a or b`, `a, b, or c`. -/
def enumerate : List String → String
  | [] => ""
  | [a] => a
  | [a, b] => a ++ " or " ++ b
  | words => ", ".intercalate words.dropLast ++ ", or " ++ words.getLastD ""

/-- The blanks that put the mark under the column, with the tabs of the line. -/
def padding (error : SyntaxError) : List Char :=
  (error.shown.take (error.column - 1)).map fun c => if c = '\t' then '\t' else ' '

/-- The text of a syntax error. -/
def message (error : SyntaxError) : String :=
  let line := toString error.line
  let margin := String.ofList (List.replicate line.length ' ')
  "Syntax Error: " ++ "\n".intercalate
    [margin ++ "--> " ++ line ++ ":" ++ toString error.column,
      margin ++ " |",
      line ++ " | " ++ String.ofList error.shown,
      margin ++ " | " ++ String.ofList error.padding ++ "^---",
      margin ++ " |",
      margin ++ " = expected " ++ enumerate (error.expected.map Symbol.name)]

end SyntaxError

/-- The tree of a pattern file. -/
def parse (source : String) : Except SyntaxError Node :=
  let text := source.toList
  match Reader.program.read text with
  | some (tree, _) => .ok tree
  | none => .error (.ofAttempts text (Reader.program.trace text (.start text)).2)

/-- A text that the grammar reads parses to its tree. -/
theorem parse_of_taken {source : String} {tree : Node} {rest : List Char}
    (h : Reader.program.read source.toList = some (tree, rest)) : parse source = .ok tree := by
  simp only [parse, h]

/-- A text that the grammar does not read is a syntax error. -/
theorem parse_of_refused {source : String} (h : Reader.program.read source.toList = none) :
    ∃ error, parse source = .error error := by
  simp only [parse, h, Except.error.injEq, exists_eq']

end Peephole

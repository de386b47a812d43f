import Peephole.Grammar.Statement

/-!
# Grammar/Program — declarations, rules and whole pattern files

    set load = { iload, aload };
    pattern add_zero: x: load(a) ldc_int(k) iadd --> { if (k == 0) { x; } }

The readers build the tree as they go: the tree of a rule's replacement depends on the names of its
match elements, which have been read by then.
-/

namespace Peephole

/-- The names of the named elements of a match side. -/
def Node.elementNames (elements : List Node) : List String :=
  (elements.filter (·.kind = .namedElement)).map text

namespace Reader

/-- An opcode or an alias. -/
def instruction : Reader Node := named .instruction do
  return .leaf .instruction (← identifier)

/-- `{ name, … }` -/
def instructionSet : Reader Node := named .instructionSet do
  text "\x7b"
  gap
  let instructions ← commaSeparated instruction
  gap
  text "\x7d"
  return .branch .instructionSet instructions

/-- `set name = { name, … };` -/
def declaration : Reader Node := named .declaration do
  text "set"
  gap
  let name ← identifier
  gap
  text "="
  gap
  let set ← instructionSet
  gap
  text ";"
  return .branch .declaration [.leaf .identifier name, set]

/-! ## Match sides -/

/-- The name an instruction's argument is captured under. -/
def capture : Reader Node := named .capture do
  return .leaf .reference (← identifier)

/-- What a match element asks for: anything, or an instruction and names for its arguments. -/
def elementBody : Reader (List Node) :=
  (do
    wildcard
    return [.leaf .wildcard ""])
  <|> (do
    let body ← instructionSet <|> instruction
    gap
    let captures ← optional? (parenthesized capture)
    return body :: captures.getD [])

/-- `name: body` -/
def namedElement : Reader Node := named .namedInstruction do
  let name ← identifier
  gap
  text ":"
  gap
  let body ← elementBody
  return .mk .namedElement name body

/-- Reads an element of a match side that has no name. -/
def unnamedElement : Reader Node := named .unnamedInstruction do
  return .branch .unnamedElement (← elementBody)

/-- One or more elements. -/
def matchSide : Reader (List Node) := named .matchSide do
  let first ← namedElement <|> unnamedElement
  gap
  let more ← series (namedElement <|> unnamedElement)
  return first :: more

/-! ## Rules and programs -/

/-- `pattern name: elements --> { statements }` -/
def rule : Reader Node := named .rule do
  text "pattern"
  gap
  let name ← identifier
  gap
  text ":"
  gap
  let elements ← matchSide
  gap
  text "-->"
  gap
  let body ← statements .replacement (statement (Node.elementNames elements))
  return .mk .rule name [.branch .pattern elements, .branch .replacement body]

/-- A whole pattern file. -/
def program : Reader Node := named .program do
  gap
  let declarations ← series declaration
  gap
  let rules ← series rule
  gap
  endOfInput
  return .branch .program (declarations ++ rules)

end Reader

end Peephole

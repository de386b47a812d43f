import Peephole.Grammar.Expression

/-!
# Grammar/Statement — the statements of a replacement

A statement without arguments that bears the name of a match element copies that element; every
other one builds an instruction.  The readers therefore take the names of the match elements of
their rule.
-/

namespace Peephole

/-- The statement a name and arguments make. -/
def Node.simpleStatement (elements : List String) (name : String) (arguments : List Node) : Node :=
  if arguments.isEmpty && elements.contains name then .leaf .reuse name
  else .mk .construct name arguments

namespace Reader

/-- `name;` or `name(expression, …);` -/
def instructionStatement (elements : List String) : Reader Node := named .instructionStatement do
  let name ← identifier
  gap
  let arguments ← optional? (parenthesized expression)
  gap
  text ";"
  return .simpleStatement elements name (arguments.getD [])

/-- `{ statement … }` under a symbol of its own. -/
def statements (symbol : Symbol) (statement : Reader Node) : Reader (List Node) :=
  named symbol (braced statement)

/-- `case name` or `default` -/
def label : Reader String :=
  (do
    text "case"
    gap
    identifier)
  <|> (named .defaultLabel do
    text "default"
    return "default")

/-- `case name: { … }` -/
def caseClause (statement : Reader Node) : Reader Node := named .caseClause do
  let name ← label
  gap
  text ":"
  gap
  let body ← statements .block statement
  return .mk .caseClause name body

/-- `switch (name) { case name: { … } … }` -/
def switchStatement (statement : Reader Node) : Reader Node := named .switchStatement do
  text "switch"
  gap
  text "("
  gap
  let name ← identifier
  gap
  text ")"
  gap
  let cases ← braced (caseClause statement)
  return .branch .switch (.leaf .reference name :: cases)

/-- `if (expression) { … }` -/
def ifClause (statement : Reader Node) : Reader Node := named .ifClause do
  text "if"
  gap
  text "("
  gap
  let condition ← expression
  gap
  text ")"
  gap
  let body ← statements .block statement
  return .branch .ifClause (condition :: body)

/-- `else { … }` -/
def elseClause (statement : Reader Node) : Reader Node := named .elseClause do
  text "else"
  gap
  let body ← statements .block statement
  return .branch .elseClause body

/-- `if (…) { … } else if (…) { … } else { … }` -/
def ifStatement (statement : Reader Node) : Reader Node := named .ifStatement do
  let first ← ifClause statement
  gap
  let more ← series do
    text "else"
    gap
    ifClause statement
  gap
  let last ← optional? (elseClause statement)
  return .branch .ifChain (first :: more ++ last.toList)

/-- Reads a statement with at most `depth` levels of blocks. -/
def statementWithin (elements : List String) : Nat → Reader Node
  | 0 => failure
  | depth + 1 =>
    let inner := delay fun _ => statementWithin elements depth
    switchStatement inner <|> ifStatement inner <|> instructionStatement elements

/-- Reads a statement of a rule whose match elements have the given names. -/
def statement (elements : List String) : Reader Node := nested (statementWithin elements)

end Reader

end Peephole

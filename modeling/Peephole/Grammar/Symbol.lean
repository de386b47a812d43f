/-!
# Grammar/Symbol — the parts of the pattern grammar that a syntax error can name

A failed reading says which parts of the grammar could have stood at the place where it stopped.
They are always listed in the order of `all`, whatever the order in which they were tried.
-/

namespace Peephole

/-- A part of the grammar that a reader looks for. -/
inductive Symbol where
  | endOfInput
  | identifier
  | integer
  | program
  | declaration
  | instructionSet
  | instruction
  | rule
  | matchSide
  | namedInstruction
  | unnamedInstruction
  | wildcard
  | capture
  | replacement
  | block
  | instructionStatement
  | switchStatement
  | caseClause
  | defaultLabel
  | ifStatement
  | ifClause
  | elseClause
  | disjunction
  | conjunction
  | comparison
  | sum
  | product
  | variable
  | orOp
  | andOp
  | comparisonOp
  | sumOp
  | productOp
deriving DecidableEq, Repr

namespace Symbol

/-- Every symbol, in the order in which errors list them. -/
def all : List Symbol :=
  [endOfInput, identifier, integer, program, declaration, instructionSet, instruction, rule,
    matchSide, namedInstruction, unnamedInstruction, wildcard, capture, replacement, block,
    instructionStatement, switchStatement, caseClause, defaultLabel, ifStatement, ifClause,
    elseClause, disjunction, conjunction, comparison, sum, product, .variable, orOp, andOp,
    comparisonOp, sumOp, productOp]

theorem mem_all (symbol : Symbol) : symbol ∈ all := by
  cases symbol <;> decide

/-- The word for a symbol in messages. -/
def name : Symbol → String
  | endOfInput => "EOI"
  | identifier => "identifier"
  | integer => "integer"
  | program => "program"
  | declaration => "declaration"
  | instructionSet => "instruction_set"
  | instruction => "instruction"
  | rule => "rule"
  | matchSide => "match_side"
  | namedInstruction => "named_instruction"
  | unnamedInstruction => "unnamed_instruction"
  | wildcard => "wildcard"
  | capture => "capture"
  | replacement => "replacement"
  | block => "block"
  | instructionStatement => "instruction_statement"
  | switchStatement => "switch_statement"
  | caseClause => "case_clause"
  | defaultLabel => "default_label"
  | ifStatement => "if_statement"
  | ifClause => "if_clause"
  | elseClause => "else_clause"
  | disjunction => "disjunction"
  | conjunction => "conjunction"
  | comparison => "comparison"
  | sum => "sum"
  | product => "product"
  | .variable => "variable"
  | orOp => "or_op"
  | andOp => "and_op"
  | comparisonOp => "comparison_op"
  | sumOp => "sum_op"
  | productOp => "product_op"

end Symbol

end Peephole

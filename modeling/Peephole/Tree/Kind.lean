import Peephole.Tree.Operator

/-!
# Tree/Kind — what a node of a pattern file stands for

The kind of a node fixes what its text and its children mean; each constructor says how.  Messages
name a kind by its `label`, which forgets the operator of an operator node.
-/

namespace Peephole

/-- The kind of a node. -/
inductive Kind where
  /-- A pattern file: declarations, then rules. -/
  | program
  /-- `set name = { … };`: an identifier, then an instruction set. -/
  | declaration
  /-- A plain name, held in the text. -/
  | identifier
  /-- Interchangeable instructions, declared under an alias or written in a match side. -/
  | instructionSet
  /-- `pattern name: … --> { … }`: a match side and a replacement, named by the text. -/
  | rule
  /-- The match side of a rule: its elements. -/
  | pattern
  /-- The replacement side of a rule: its statements. -/
  | replacement
  /-- A match element that the replacement can refer to by the text. -/
  | namedElement
  /-- A match element without a name. -/
  | unnamedElement
  /-- An opcode or an alias, held in the text. -/
  | instruction
  /-- `_`: any one instruction. -/
  | wildcard
  /-- Builds the instruction the text names, from argument expressions. -/
  | construct
  /-- Copies the matched element the text names. -/
  | reuse
  /-- A choice by the instruction of a match element: a reference, then cases. -/
  | switch
  /-- The statements of one label of a switch; the text is the label. -/
  | caseClause
  /-- An if / else if / else chain: its clauses. -/
  | ifChain
  /-- One condition of a chain, then its statements. -/
  | ifClause
  /-- The last clause of a chain: its statements. -/
  | elseClause
  /-- Arithmetic over two or more operands. -/
  | arithmetic (op : Arithmetic)
  /-- A condition over two or more operands. -/
  | condition (op : Condition)
  /-- An integer, written in the text. -/
  | integer
  /-- A captured argument or a match element, named by the text. -/
  | reference
deriving DecidableEq, Repr

namespace Kind

/-- The word for a kind in messages. -/
def label : Kind → String
  | program => "PROGRAM"
  | declaration => "DECLARATION"
  | identifier => "IDENTIFIER"
  | instructionSet => "INSTRUCTION_SET"
  | rule => "RULE"
  | pattern => "PATTERN"
  | replacement => "REPLACEMENT"
  | namedElement => "NAMED_INSTR"
  | unnamedElement => "UNNAMED_INSTR"
  | instruction => "INSTRUCTION"
  | wildcard => "INSTRUCTION_COUNT"
  | construct => "STATEMENT_INSTRUCTION"
  | reuse => "STATEMENT_VARIABLE"
  | switch => "STATEMENT_SWITCH"
  | caseClause => "STATEMENT_CASE"
  | ifChain => "STATEMENT_COMPOUND"
  | ifClause => "STATEMENT_IF"
  | elseClause => "STATEMENT_ELSE"
  | arithmetic _ => "ARITHMETIC"
  | condition _ => "CONDITION"
  | integer => "INT_LITERAL"
  | reference => "VARIABLE_REFERENCE"

/-- The operator of an operator node. -/
def operator? : Kind → Option Operator
  | arithmetic op => some (.arithmetic op)
  | condition op => some (.condition op)
  | _ => none

/-- Whether a node of this kind can stand as an operand or a condition. -/
def isExpression : Kind → Bool
  | arithmetic _ | condition _ | integer | reference => true
  | _ => false

end Kind

end Peephole

import Peephole.Tree.Kind

/-!
# Fault — why a tree has no matchers

A fault is a cause.  Its wording is `message`, in one place, and `root` sees through the rules a
fault was met in.
-/

namespace Peephole

/-- What a node of some kind lacks or has too much of. -/
inductive Defect where
  | missingDeclaredName
  | missingInstructionSet
  | missingPattern
  | notAnElement
  | missingInstruction
  | notAnInstruction
  | emptyPattern
  | repeatedName (name : String)
  | notACapture
  | capturingWildcard
  | unboundSet
  | tooFewOperands
  | notAnExpression
  | notAReplacement
  | notAStatement
  | missingDiscriminant
  | noCases
  | notACase
  | switchOnWildcard (name : String)
  | missingIf
  | missingCondition
  | misplacedClause
  | badFunctionName (name : String)
  | missingReplacement
  /-- A defect in the words of whoever found it. -/
  | described (reason : String)
deriving DecidableEq, Repr

/-- The wording of a defect. -/
def Defect.message : Defect → String
  | missingDeclaredName => "missing declared name"
  | missingInstructionSet => "missing instruction set"
  | missingPattern => "first child must be the match pattern"
  | notAnElement => "expected a named or unnamed instruction in match pattern"
  | missingInstruction => "missing instruction"
  | notAnInstruction => "unexpected node as instruction of a match element"
  | emptyPattern => "match pattern is empty"
  | repeatedName name => "name '" ++ name ++ "' is used twice"
  | notACapture => "instruction arguments must be capture names"
  | capturingWildcard => "wildcard cannot capture arguments"
  | unboundSet => "inline instruction set has no binding"
  | tooFewOperands => "operator needs at least two operands"
  | notAnExpression => "not an expression"
  | notAReplacement => "expected the replacement side of a rule"
  | notAStatement => "not a replacement statement"
  | missingDiscriminant => "missing discriminant"
  | noCases => "switch has no case clauses"
  | notACase => "expected a case clause in switch"
  | switchOnWildcard name => "'" ++ name ++ "' matches any instruction"
  | missingIf => "must start with an if clause"
  | missingCondition => "missing condition"
  | misplacedClause => "unexpected clause in if statement"
  | badFunctionName name => "'" ++ name ++ "' is not a valid function name"
  | missingReplacement => "missing replacement"
  | described reason => reason

/-- The cause of a failed generation. -/
inductive Fault where
  /-- An alias is declared twice. -/
  | duplicateDeclaration (name : String)
  /-- The replacement refers to what the match side does not bind. -/
  | undefined (name : String)
  /-- A switch has no case for the instruction its element stands for. -/
  | unresolvedCase (discriminant instruction : String)
  /-- A node does not have the shape of its kind. -/
  | malformed (kind : Kind) (defect : Defect)
  /-- A fault met in a rule, for a choice of instructions that `bindings` spells. -/
  | inRule (rule bindings : String) (cause : Fault)
deriving DecidableEq, Repr

namespace Fault

/-- The wording of a fault. -/
def message : Fault → String
  | duplicateDeclaration name => "Instruction set '" ++ name ++ "' is declared more than once"
  | undefined name => "Undefined variable '" ++ name ++ "'"
  | unresolvedCase discriminant instruction =>
    "Switch on '" ++ discriminant ++ "' has no case for bound instruction '" ++ instruction ++ "'"
  | malformed kind defect => "Malformed " ++ kind.label ++ " node: " ++ defect.message
  | inRule rule bindings cause =>
    "In rule '" ++ rule ++ "' [" ++ bindings ++ "]: " ++ cause.message

/-- The fault itself, without the rules it was met in. -/
def root : Fault → Fault
  | inRule _ _ cause => cause.root
  | fault => fault

end Fault

end Peephole

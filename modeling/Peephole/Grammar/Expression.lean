import Peephole.Grammar.Lexeme
import Peephole.Tree.Node

/-!
# Grammar/Expression — expressions, from the loosest binding to the tightest

    disjunction  ||      conjunction  &&      comparison  == != <= >= < >
    sum  + -             product  * / %       an integer, a variable, or parentheses

Operators of one level lean left.  A run of one operator is a single node with all its operands, and
an operand in parentheses that is such a run already takes the further operands (`Node.extend`).  A
comparison has at most one operator.
-/

namespace Peephole

/-- Applies an operator to what stands before it and after it. -/
def Node.extend (lhs : Node) (op : Kind) (rhs : Node) : Node :=
  if lhs.kind = op ∧ 2 ≤ lhs.children.length then .mk lhs.kind lhs.text (lhs.children ++ [rhs])
  else .branch op [lhs, rhs]

namespace Reader

/-- Reads an operator of one level and the operand after it. -/
def step (op : Reader Kind) (operand : Reader Node) : Reader (Kind × Node) := do
  let kind ← op
  gap
  let rhs ← operand
  return (kind, rhs)

/-- Reads operands with operators of one level between them. -/
def chain (operand : Reader Node) (op : Reader Kind) : Reader Node := do
  let first ← operand
  gap
  let steps ← series (step op operand)
  return steps.foldl (fun lhs (kind, rhs) => lhs.extend kind rhs) first

/-- Reads one of some arithmetic operators. -/
def arithmeticOp (symbol : Symbol) (operators : List Arithmetic) : Reader Kind := do
  return .arithmetic (← operator symbol Arithmetic.token operators)

/-- Reads a condition operator.  A token comes before those it starts with. -/
def conditionOp (symbol : Symbol) (operators : List Condition) : Reader Kind := do
  return .condition (← operator symbol Condition.token operators)

/-- Reads `||`. -/
def orOp : Reader Kind := conditionOp .orOp [.or]

/-- Reads `&&`. -/
def andOp : Reader Kind := conditionOp .andOp [.and]

/-- Reads a comparison operator; of two that start the same, the longer one is tried first. -/
def comparisonOp : Reader Kind := conditionOp .comparisonOp [.eq, .ne, .le, .ge, .lt, .gt]

/-- Reads `+` or `-`. -/
def sumOp : Reader Kind := arithmeticOp .sumOp [.add, .sub]

/-- Reads `*`, `/` or `%`. -/
def productOp : Reader Kind := arithmeticOp .productOp [.mul, .div, .rem]

/-- Reads an operand of the tightest level; `inner` reads what stands in parentheses. -/
def atom (inner : Reader Node) : Reader Node :=
  (do return .leaf .integer (← integer))
  <|> (do return .leaf .reference (← named .variable identifier))
  <|> (do
    text "("
    gap
    let node ← inner
    gap
    text ")"
    return node)

/-- Reads atoms with `*`, `/` and `%` between them. -/
def product (inner : Reader Node) : Reader Node := named .product (chain (atom inner) productOp)

/-- Reads products with `+` and `-` between them. -/
def sum (inner : Reader Node) : Reader Node := named .sum (chain (product inner) sumOp)

/-- Reads a sum, or two with a comparison between them. -/
def comparison (inner : Reader Node) : Reader Node := named .comparison do
  let lhs ← sum inner
  gap
  match ← optional? (step comparisonOp (sum inner)) with
  | none => return lhs
  | some (kind, rhs) => return lhs.extend kind rhs

/-- Reads comparisons with `&&` between them. -/
def conjunction (inner : Reader Node) : Reader Node :=
  named .conjunction (chain (comparison inner) andOp)

/-- Reads conjunctions with `||` between them. -/
def disjunction (inner : Reader Node) : Reader Node :=
  named .disjunction (chain (conjunction inner) orOp)

/-- Reads an expression with at most `depth` levels of parentheses. -/
def expressionWithin : Nat → Reader Node
  | 0 => failure
  | depth + 1 => disjunction (delay fun _ => expressionWithin depth)

/-- Reads an expression. -/
def expression : Reader Node := nested expressionWithin

end Reader

end Peephole

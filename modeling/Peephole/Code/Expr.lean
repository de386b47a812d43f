import Peephole.Fault
import Peephole.Tree.Node

/-!
# Code/Expr — the C expressions of a matcher

An expression is a literal, a captured argument or a chain of operands under one operator.  Each
chain is written in parentheses of its own, `(a + b + c)`, so the text does not lean on the
precedence of C.  `Node.toExpr` reads an expression off a tree and says what is wrong with a tree
that holds none.
-/

namespace Peephole

/-- A C expression over captured arguments. -/
inductive Expr where
  | literal (text : String)
  | argument (name : String)
  | chain (op : Operator) (operands : List Expr)

/-- The C local that holds a captured argument. -/
def argumentLocal (name : String) : String := "arg_" ++ name

namespace Expr

mutual

/-- The C text of an expression. -/
def text : Expr → String
  | literal text => text
  | argument name => argumentLocal name
  | chain op operands => "(" ++ (" " ++ op.token ++ " ").intercalate (texts operands) ++ ")"

/-- The C texts of expressions. -/
def texts : List Expr → List String
  | [] => []
  | expr :: exprs => text expr :: texts exprs

end

end Expr

namespace Node

mutual

/-- The expression a tree stands for. -/
def toExpr : Node → Except Fault Expr
  | mk kind text children =>
    match kind with
    | .integer => .ok (.literal text)
    | .reference => .ok (.argument text)
    | kind =>
      match kind.operator? with
      | none => .error (.malformed kind .notAnExpression)
      | some op =>
        if children.length < 2 then .error (.malformed kind .tooFewOperands)
        else do return .chain op (← toExprs children)

/-- The expressions that trees stand for; the first fault counts. -/
def toExprs : List Node → Except Fault (List Expr)
  | [] => .ok []
  | node :: nodes => do return (← toExpr node) :: (← toExprs nodes)

end

end Node

end Peephole

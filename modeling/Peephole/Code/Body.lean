import Peephole.Code.Expr

/-!
# Code/Body — the C statements that rebuild

After a match, a matcher builds the replacement node by node, links the nodes, and replaces the
matched span.  A body is straight code that ends in a return, or in an if / else chain all of whose
branches are bodies; so every path returns.
-/

namespace Peephole

/-- The value of a new node. -/
inductive Value where
  /-- An instruction with its arguments. -/
  | make (opcode : String) (arguments : List Expr)
  /-- A copy of the instruction at a cursor. -/
  | copy (cursor : String)

/-- The C expression that makes a node. -/
def Value.text : Value → String
  | make opcode arguments =>
    "makeCODE" ++ opcode ++ "(" ++ ", ".intercalate (Expr.texts arguments ++ ["NULL"]) ++ ")"
  | copy cursor => "copyCODE(" ++ cursor ++ ")"

mutual

/-- The statements of a matcher after its match side.  Nodes are numbered. -/
inductive Body where
  /-- Declares a node. -/
  | declare (node : Nat) (value : Value) (rest : Body)
  /-- Makes a node the next of another. -/
  | link (last node : Nat) (rest : Body)
  /-- Makes what follows the instruction at a cursor the next of a node. -/
  | linkRest (last : Nat) (cursor : String) (rest : Body)
  /-- Replaces the matched instructions by a list of nodes, or by nothing. -/
  | replace (consumed : Nat) (head : Option Nat)
  /-- Gives up the match. -/
  | giveUp
  /-- Opens a chain of conditions. -/
  | branch (condition : Expr) (body : Body) (more : Branch)

/-- What follows the first clause of a chain. -/
inductive Branch where
  | elseIf (condition : Expr) (body : Body) (more : Branch)
  | otherwise (body : Body)

end

/-- The C local that holds a node. -/
def nodeLocal (node : Nat) : String := "statement_" ++ toString node

/-- The blanks before a line at a depth. -/
def indentation (depth : Nat) : String := String.join (List.replicate depth "    ")

mutual

/-- The C text of a body at a depth. -/
def Body.text (depth : Nat) : Body → String
  | .declare node value rest =>
    indentation depth ++ "CODE *" ++ nodeLocal node ++ " = " ++ value.text ++ ";\n" ++
      rest.text depth
  | .link last node rest =>
    indentation depth ++ nodeLocal last ++ "->next = " ++ nodeLocal node ++ ";\n" ++
      rest.text depth
  | .linkRest last cursor rest =>
    indentation depth ++ nodeLocal last ++ "->next = next(" ++ cursor ++ ");\n" ++ rest.text depth
  | .replace consumed head =>
    indentation depth ++ "return replace(c, " ++ toString consumed ++ ", " ++
      (head.map nodeLocal).getD "NULL" ++ ");\n"
  | .giveUp => indentation depth ++ "return 0;\n"
  | .branch condition body more =>
    indentation depth ++ "if (" ++ condition.text ++ ") \x7b\n" ++ body.text (depth + 1) ++
      more.text depth

/-- The C text of the further clauses of a chain, and of its end. -/
def Branch.text (depth : Nat) : Branch → String
  | .elseIf condition body more =>
    indentation depth ++ "\x7d else if (" ++ condition.text ++ ") \x7b\n" ++
      body.text (depth + 1) ++ more.text depth
  | .otherwise body =>
    indentation depth ++ "\x7d else \x7b\n" ++ body.text (depth + 1) ++ indentation depth ++
      "\x7d\n"

end

end Peephole

import Peephole.Template

/-!
# Code/MatchStep — the C lines that match

The match side of a rule becomes a straight run of lines: each element gets a cursor, locals for its
captures and a guard that gives up the match.  The opcode a guard asks for may be a slot, so a step
is written as a template.
-/

namespace Peephole

/-- The opcode a guard asks for. -/
inductive Opcode where
  /-- The one the rule names. -/
  | literal (name : String)
  /-- The one chosen for a slot. -/
  | slot (index : Nat)
deriving DecidableEq, Repr

/-- The text of an opcode, with a hole for a chosen one. -/
def Opcode.template : Opcode → Template
  | literal name => .ofText name
  | slot index => .ofSlot index

/-- A line of the match side. -/
inductive MatchStep where
  /-- Declares a cursor, one instruction past the previous one or at the start of the match. -/
  | cursor (name : String) (previous : Option String)
  /-- Declares a local for an argument. -/
  | argument (name : String)
  /-- Gives up unless the instruction at the cursor has the opcode; fetches its arguments. -/
  | opcode (opcode : Opcode) (cursor : String) (arguments : List String)
  /-- Gives up at the end of the instructions. -/
  | present (cursor : String)
  /-- Gives up unless two arguments are equal. -/
  | equal (later first : String)
deriving DecidableEq, Repr

/-- The line of a step. -/
def MatchStep.template : MatchStep → Template
  | .cursor name none => .ofText ("    CODE *" ++ name ++ " = *c;\n")
  | .cursor name (some previous) =>
    .ofText ("    CODE *" ++ name ++ " = next(" ++ previous ++ ");\n")
  | .argument name => .ofText ("    int " ++ name ++ ";\n")
  | .opcode asked place arguments =>
    .ofText "    if (!is_" ++ asked.template ++
      .ofText ("(" ++ place ++ String.join (arguments.map (", &" ++ ·)) ++ ")) return 0;\n")
  | .present place => .ofText ("    if (" ++ place ++ " == NULL) return 0;\n")
  | .equal later first => .ofText ("    if (" ++ later ++ " != " ++ first ++ ") return 0;\n")

end Peephole

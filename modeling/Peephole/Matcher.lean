import Peephole.Replacement
import Peephole.Word

/-!
# Matcher — one generated C function

A matcher is a rule under one choice of instructions: the lines that match, with the chosen opcodes
in their slots, then the body that rebuilds.  Its name is the name of the rule with the chosen
instructions after it, and must be a C identifier.
-/

namespace Peephole

/-- A rule under one choice of instructions. -/
structure Matcher where
  name : String
  /-- The match side, with slots for the chosen opcodes. -/
  side : MatchSide
  /-- The chosen opcodes, slot by slot. -/
  instructions : List String
  body : Body

namespace Matcher

/-- The name of a rule's matchers, with a slot for each binding. -/
def nameTemplate (rule : Node) (bindings : List Binding) : Template :=
  .ofText rule.text ++
    .concat ((List.range bindings.length).map fun slot => .ofText "_" ++ .ofSlot slot)

/-- The matcher of a rule under a choice. -/
def ofChoice (rule : Node) (bindings : List Binding) (side : MatchSide) (choice : Choice) :
    Except Fault Matcher := do
  let name := (nameTemplate rule bindings).instantiate choice.instructions
  if !isCIdentifier name then throw (.malformed .rule (.badFunctionName name))
  match rule.child? 1 with
  | none => throw (.malformed .rule .missingReplacement)
  | some replacement =>
    let body ← Scene.replacement ⟨side.layout, bindings, choice⟩ replacement
    return ⟨name, side, choice.instructions, body⟩

/-- The C text of a matcher. -/
def text (matcher : Matcher) : String :=
  "int " ++ matcher.name ++ "(CODE **c)\n\x7b\n" ++
    matcher.side.template.instantiate matcher.instructions ++ matcher.body.text 1 ++ "\x7d\n\n"

end Matcher

end Peephole

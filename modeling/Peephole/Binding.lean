import Peephole.Alias

/-!
# Binding — which match elements range over an instruction set

An element whose instruction is an alias, or which lists a set of its own, stands for one
instruction at a time.  Its *binding* says for which alias; a set of its own gets a fresh alias
`inlined_k`.  The bindings of a rule, in the order of its match side, are the slots of its
expansion.
-/

namespace Peephole

/-- A match element that ranges over an alias. -/
structure Binding where
  /-- The name of the element, or `unnamed`. -/
  displayName : String
  /-- The alias it ranges over. -/
  aliasName : String
  /-- Where the element stands in the match side, from 0. -/
  position : Nat
deriving DecidableEq, Repr

namespace Node

/-- The match side of a rule. -/
def matchSide (rule : Node) : Except Fault Node :=
  match rule.children with
  | pattern :: _ =>
    if pattern.kind = .pattern then .ok pattern else .error (.malformed .rule .missingPattern)
  | [] => .error (.malformed .rule .missingPattern)

/-- What messages call a match element. -/
def displayName (element : Node) : Except Fault String :=
  match element.kind with
  | .namedElement => .ok element.text
  | .unnamedElement => .ok "unnamed"
  | kind => .error (.malformed kind .notAnElement)

/-- The instruction part of a match element. -/
def elementInstruction (element : Node) : Except Fault Node :=
  match element.children with
  | instruction :: _ => .ok instruction
  | [] => .error (.malformed element.kind .missingInstruction)

end Node

namespace Binding

/-- The slot of the element at a position of the match side. -/
def slotAt? (bindings : List Binding) (position : Nat) : Option Nat :=
  bindings.findIdx? (·.position == position)

/-- The slot of the first element with a display name. -/
def slotNamed? (bindings : List Binding) (displayName : String) : Option Nat :=
  bindings.findIdx? (·.displayName == displayName)

/-! ## Resolution -/

/-- The alias that stands for the `k`-th set written in a match side. -/
def inlinedName (k : Nat) : String := "inlined_" ++ toString k

/-- The least number above `used` whose name is free.  A table of `n` aliases takes at most `n` of
`n + 1` names. -/
def freshIndex (table : AliasTable) (used : Nat) : Nat :=
  ((List.range' (used + 1) (table.size + 1)).find? fun k =>
    !table.contains (inlinedName k)).getD (used + 1)

/-- What is known after some elements of a match side. -/
structure Resolution where
  /-- The aliases of the file and those of the sets met so far. -/
  table : AliasTable
  /-- The highest number given to a set. -/
  used : Nat
  bindings : List Binding

/-- Takes one more element into account. -/
def Resolution.element (found : Resolution) (position : Nat) (element : Node) :
    Logged Fault Resolution := do
  let displayName ← Logged.ofExcept element.displayName
  let body ← Logged.ofExcept element.elementInstruction
  match body.kind with
  | .instruction =>
    if found.table.contains body.text then
      return { found with bindings := found.bindings ++ [⟨displayName, body.text, position⟩] }
    else return found
  | .wildcard => return found
  | .instructionSet =>
    let k := freshIndex found.table found.used
    let table ← found.table.insertLogged (inlinedName k) body.childTexts
    return ⟨table, k, found.bindings ++ [⟨displayName, inlinedName k, position⟩]⟩
  | kind => Logged.ofExcept (.error (.malformed kind .notAnInstruction))

/-- Takes elements into account, the first of which stands at `position`. -/
def Resolution.elements (found : Resolution) (position : Nat) : List Node → Logged Fault Resolution
  | [] => return found
  | element :: more => do
    let found ← found.element position element
    found.elements (position + 1) more

/-- The bindings of a rule, and its aliases: those of the file and those of its own sets. -/
def resolve (rule : Node) (table : AliasTable) : Logged Fault (List Binding × AliasTable) := do
  let pattern ← Logged.ofExcept rule.matchSide
  let found ← Resolution.elements ⟨table, 0, []⟩ 0 pattern.children
  return (found.bindings, found.table)

end Binding

end Peephole

import Peephole.Binding
import Peephole.Code.Expr
import Peephole.Code.MatchStep

/-!
# Layout — the match side of a rule, line by line

Element by element, a match side fixes a cursor, the locals of the captured arguments and a guard.
The first capture of a name is the argument the replacement sees; a later capture gets a local of
its own, numbered past every name the rule captures, and must turn out equal to the first.

`Layout` keeps what the replacement side needs to know, and is never empty.
-/

namespace Peephole

/-- A match element as the replacement sees it. -/
structure Element where
  displayName : String
  /-- Whether the replacement can refer to it. -/
  named : Bool
  /-- The C local that points at its instruction. -/
  cursor : String
  /-- The opcode it asks for, `none` for any. -/
  opcode : Option Opcode
deriving DecidableEq, Repr

/-- What a match side makes known to the replacement. -/
structure Layout where
  elements : List Element
  /-- The captured names, in order of first capture. -/
  captures : List String
  nonempty : elements ≠ []

namespace Layout

/-- The number of instructions a match spans. -/
def consumed (layout : Layout) : Nat := layout.elements.length

/-- The cursor of the last element. -/
def lastCursor (layout : Layout) : String := (layout.elements.getLast layout.nonempty).cursor

/-- The element the replacement calls `name`. -/
def named? (layout : Layout) (name : String) : Option Element :=
  layout.elements.find? fun element => element.named && element.displayName == name

/-- Whether the match side captures an argument under a name. -/
def isCaptured (layout : Layout) (name : String) : Bool := layout.captures.contains name

/-! ## Captures -/

/-- The least number above `used` with which `name` is none of the captured names.  Among
`n + 1` numbers, `n` names leave one free. -/
def freshNumber (names : List String) (name : String) (used : Nat) : Nat :=
  ((List.range' (used + 1) (names.length + 1)).find? fun k =>
    !names.contains (name ++ "_" ++ toString k)).getD (used + 1)

/-- The captures read so far. -/
structure Captures where
  /-- Each captured name with the highest number given to a local of it. -/
  uses : List (String × Nat)
  /-- The locals of the current element. -/
  locals : List String
  /-- The equalities the current element adds. -/
  equalities : List MatchStep

/-- Captures an argument under `name`; `names` are all names the rule captures. -/
def Captures.add (captures : Captures) (names : List String) (name : String) : Captures :=
  match captures.uses.find? (·.1 == name) with
  | none =>
    { captures with
      uses := captures.uses ++ [(name, 1)]
      locals := captures.locals ++ [argumentLocal name] }
  | some (_, used) =>
    let number := freshNumber names name used
    let later := argumentLocal (name ++ "_" ++ toString number)
    { uses := captures.uses.map fun use => if use.1 == name then (name, number) else use
      locals := captures.locals ++ [later]
      equalities := captures.equalities ++ [.equal later (argumentLocal name)] }

/-- Captures the arguments of an element of the given kind. -/
def Captures.addAll (names : List String) (kind : Kind) :
    Captures → List Node → Except Fault Captures
  | captures, [] => .ok captures
  | captures, capture :: more =>
    if capture.kind = .reference then (captures.add names capture.text).addAll names kind more
    else .error (.malformed kind .notACapture)

/-- The names that a match side captures, each as often as it does. -/
def capturedNames (elements : List Node) : List String :=
  elements.flatMap fun element => element.childTexts.drop 1

/-! ## Elements -/

/-- The lines and elements of the match side so far. -/
structure Draft where
  steps : List MatchStep
  elements : List Element
  uses : List (String × Nat)

/-- The cursor of an element at a position, which must not bear the name of an earlier one. -/
def Draft.cursor (draft : Draft) (position : Nat) (element : Node) (displayName : String) :
    Except Fault String :=
  if element.kind = .namedElement then
    if draft.elements.any fun earlier => earlier.named && earlier.displayName == displayName then
      .error (.malformed element.kind (.repeatedName displayName))
    else .ok ("instr_" ++ displayName)
  else .ok ("instr_" ++ toString (position + 1))

/-- The opcode an element asks for, `none` for any. -/
def elementOpcode (bindings : List Binding) (position : Nat) (element : Node)
    (hasCaptures : Bool) : Except Fault (Option Opcode) := do
  let instruction ← element.elementInstruction
  match instruction.kind with
  | .wildcard =>
    if hasCaptures then .error (.malformed element.kind .capturingWildcard) else .ok none
  | .instruction =>
    match Binding.slotAt? bindings position with
    | some slot => .ok (some (.slot slot))
    | none => .ok (some (.literal instruction.text))
  | .instructionSet =>
    match Binding.slotAt? bindings position with
    | some slot => .ok (some (.slot slot))
    | none => .error (.malformed .instructionSet .unboundSet)
  | kind => .error (.malformed kind .notAnInstruction)

/-- The guard of an element. -/
def guardStep (cursor : String) (locals : List String) : Option Opcode → MatchStep
  | some opcode => .opcode opcode cursor locals
  | none => .present cursor

/-- Adds the lines of one more element. -/
def Draft.add (draft : Draft) (names : List String) (bindings : List Binding) (position : Nat)
    (element : Node) : Except Fault Draft := do
  let displayName ← element.displayName
  let cursor ← draft.cursor position element displayName
  let captures ← Captures.addAll names element.kind ⟨draft.uses, [], []⟩ (element.children.drop 1)
  let opcode ← elementOpcode bindings position element (!captures.locals.isEmpty)
  return {
    steps := draft.steps ++ [.cursor cursor (draft.elements.getLast?.map Element.cursor)] ++
      captures.locals.map .argument ++ [guardStep cursor captures.locals opcode] ++
      captures.equalities
    elements := draft.elements ++ [⟨displayName, element.kind = .namedElement, cursor, opcode⟩]
    uses := captures.uses }

/-- Adds the lines of elements, the first of which stands at `position`. -/
def Draft.addAll (names : List String) (bindings : List Binding) (position : Nat) :
    Draft → List Node → Except Fault Draft
  | draft, [] => .ok draft
  | draft, element :: more => do
    let draft ← draft.add names bindings position element
    draft.addAll names bindings (position + 1) more

end Layout

/-- The match side of a rule: its lines, and what they make known. -/
structure MatchSide where
  steps : List MatchStep
  layout : Layout

namespace MatchSide

/-- The match side of a rule with the given bindings. -/
def ofRule (rule : Node) (bindings : List Binding) : Except Fault MatchSide := do
  let pattern ← rule.matchSide
  let names := Layout.capturedNames pattern.children
  let draft ← Layout.Draft.addAll names bindings 0 ⟨[], [], []⟩ pattern.children
  if h : draft.elements = [] then .error (.malformed .pattern .emptyPattern)
  else return ⟨draft.steps, ⟨draft.elements, draft.uses.map (·.1), h⟩⟩

/-- The text of the match side, with holes for the chosen opcodes. -/
def template (side : MatchSide) : Template := .concat (side.steps.map MatchStep.template)

end MatchSide

end Peephole

import Peephole.Choice
import Peephole.Code.Body
import Peephole.Layout

/-!
# Replacement — the replacement side of a rule under a choice

Statements become nodes, numbered through the whole function and linked one to the next.  A switch
is decided here and leaves no trace: its chosen case goes on with the statements after it.  An if /
else chain ends the straight code: every clause goes on with the statements after the chain, and
without an else the match is given up.

So the statements still to come shrink at every step in number of nodes (`Node.sizeAll`), although
the statements after a chain are compiled once per clause.
-/

namespace Peephole

/-- What the replacement side of a rule is compiled against. -/
structure Scene where
  layout : Layout
  bindings : List Binding
  choice : Choice

/-- The nodes linked so far. -/
structure Linked where
  head : Nat
  last : Nat

namespace Scene

/-! ## Expressions -/

/-- Refuses an expression that refers to what the match side does not capture. -/
def checkCaptured (scene : Scene) (expression : Node) : Except Fault Unit :=
  match expression.references.find? (!scene.layout.isCaptured ·) with
  | some name => .error (.undefined name)
  | none => .ok ()

/-- An argument of a new instruction. -/
def argument (scene : Scene) (expression : Node) : Except Fault Expr := do
  scene.checkCaptured expression
  expression.toExpr

/-- The arguments of a new instruction; the first fault counts. -/
def arguments (scene : Scene) : List Node → Except Fault (List Expr)
  | [] => .ok []
  | expression :: more => do
    return (← scene.argument expression) :: (← scene.arguments more)

/-- The condition of an if clause and its statements. -/
def condition (scene : Scene) (clause : Node) : Except Fault (Expr × List Node) :=
  match clause.children with
  | expression :: body =>
    if expression.isExpression then do
      return (← scene.argument expression, body)
    else .error (.malformed .ifClause .missingCondition)
  | [] => .error (.malformed .ifClause .missingCondition)

/-! ## Switches -/

/-- The instruction that a display name stands for.  A binding goes before an element. -/
def instructionOf (scene : Scene) (name : String) : Except Fault String :=
  match Binding.slotNamed? scene.bindings name with
  | some slot =>
    match scene.choice.instruction? slot with
    | some instruction => .ok instruction
    | none => .error (.undefined name)
  | none =>
    match scene.layout.named? name with
    | none => .error (.undefined name)
    | some element =>
      match element.opcode with
      | none => .error (.malformed .switch (.switchOnWildcard name))
      | some (.literal opcode) => .ok opcode
      | some (.slot slot) =>
        match scene.choice.instruction? slot with
        | some instruction => .ok instruction
        | none => .error (.undefined name)

/-- The case for an instruction: its own, or else the default. -/
def pickCase (clauses : List Node) (instruction : String) : Option Node :=
  (clauses.find? (·.text == instruction)).or (clauses.find? (·.text == "default"))

/-- The case that a switch comes down to. -/
def chosenCase (scene : Scene) (switch : Node) : Except Fault Node :=
  match switch.children with
  | discriminant :: clauses =>
    if discriminant.kind ≠ .reference then .error (.malformed .switch .missingDiscriminant)
    else if clauses.isEmpty then .error (.malformed .switch .noCases)
    else
      match clauses.find? (·.kind ≠ .caseClause) with
      | some other => .error (.malformed other.kind .notACase)
      | none => do
        let instruction ← scene.instructionOf discriminant.text
        match pickCase clauses instruction with
        | some clause => .ok clause
        | none => .error (.unresolvedCase discriminant.text instruction)
  | [] => .error (.malformed .switch .missingDiscriminant)

/-! ## Sizes

What a clause or a chosen case goes on with is smaller than the statement it comes from. -/

/-- The statements of a clause are smaller than the clause, so reading them ends. -/
theorem condition_size {scene : Scene} {clause : Node} {expr : Expr} {statements : List Node}
    (h : scene.condition clause = .ok (expr, statements)) :
    Node.sizeAll statements < clause.size := by
  unfold condition at h
  rw [Node.size_eq]
  split at h
  · rename_i expression body children
    split at h
    · cases h' : scene.argument expression with
      | error fault => simp [h', bind, Except.bind] at h
      | ok e =>
        simp only [h', bind, Except.bind, pure, Except.pure, Except.ok.injEq, Prod.mk.injEq] at h
        obtain ⟨-, rfl⟩ := h
        simp only [children, Node.sizeAll_cons]
        omega
    · simp at h
  · simp at h

/-- A case that is picked is one of the clauses. -/
theorem pickCase_mem {clauses : List Node} {instruction : String} {clause : Node}
    (h : pickCase clauses instruction = some clause) : clause ∈ clauses := by
  unfold pickCase at h
  rcases Option.or_eq_some_iff.1 h with h | ⟨_, h⟩
  · exact List.mem_of_find?_eq_some h
  · exact List.mem_of_find?_eq_some h

/-- What a switch comes down to is one of its cases. -/
theorem chosenCase_mem {scene : Scene} {switch clause : Node}
    (h : scene.chosenCase switch = .ok clause) :
    ∃ discriminant clauses, switch.children = discriminant :: clauses ∧
      clause ∈ clauses := by
  unfold chosenCase at h
  split at h
  case h_2 => simp at h
  case h_1 discriminant clauses hchildren =>
    refine ⟨discriminant, clauses, hchildren, ?_⟩
    split at h
    case isTrue => simp at h
    case isFalse =>
      split at h
      case isTrue => simp at h
      case isFalse =>
        split at h
        case h_1 => simp at h
        case h_2 =>
          obtain ⟨instruction, -, h⟩ := bind_eq_ok_iff.1 h
          split at h
          case h_1 hpick =>
            obtain rfl := Except.ok.inj h
            exact pickCase_mem hpick
          case h_2 => simp at h

/-- The statements of the case that is chosen are smaller than the switch. -/
theorem chosenCase_size {scene : Scene} {switch clause : Node}
    (h : scene.chosenCase switch = .ok clause) : Node.sizeAll clause.children < switch.size := by
  obtain ⟨discriminant, clauses, hchildren, hclause⟩ := chosenCase_mem h
  have hmem : clause ∈ switch.children := by
    rw [hchildren]
    exact List.mem_cons_of_mem _ hclause
  have h₁ := Node.size_le_sizeAll hmem
  have h₂ := Node.size_eq clause
  have h₃ := Node.size_eq switch
  omega

/-! ## Statements -/

/-- Adds a node to those linked so far. -/
def extend (linked : Option Linked) (node : Nat) : Linked :=
  ⟨(linked.map Linked.head).getD node, node⟩

/-- Declares a node and links it to the last one. -/
def build (linked : Option Linked) (node : Nat) (value : Value) (rest : Body) : Body :=
  .declare node value
    (match linked with
    | some ⟨_, last⟩ => .link last node rest
    | none => rest)

/-- Ends a body: the matched span gives way to the nodes linked. -/
def splice (scene : Scene) : Option Linked → Body
  | some ⟨head, last⟩ =>
    .linkRest last scene.layout.lastCursor (.replace scene.layout.consumed (some head))
  | none => .replace scene.layout.consumed none

mutual

/-- The code of statements, after `count` nodes of which the linked ones lead here; with it, the
number of nodes declared by its end. -/
def compile (scene : Scene) (linked : Option Linked) (count : Nat) (statements : List Node) :
    Except Fault (Body × Nat) :=
  match statements with
  | [] => .ok (scene.splice linked, count)
  | statement :: rest =>
    match statement.kind with
    | .construct => do
      let arguments ← scene.arguments statement.children
      let (body, total) ← compile scene (some (extend linked (count + 1))) (count + 1) rest
      return (build linked (count + 1) (.make statement.text arguments) body, total)
    | .reuse =>
      match scene.layout.named? statement.text with
      | none => .error (.undefined statement.text)
      | some element => do
        let (body, total) ← compile scene (some (extend linked (count + 1))) (count + 1) rest
        return (build linked (count + 1) (.copy element.cursor) body, total)
    | .switch =>
      match _h : scene.chosenCase statement with
      | .error fault => .error fault
      | .ok clause => compile scene linked count (clause.children ++ rest)
    | .ifChain =>
      match _hc : statement.children with
      | clause :: clauses =>
        if clause.kind ≠ .ifClause then .error (.malformed .ifChain .missingIf)
        else
          match _h : scene.condition clause with
          | .error fault => .error fault
          | .ok (condition, statements) => do
            let (body, count) ← compile scene linked count (statements ++ rest)
            let (more, total) ← compileClauses scene linked count clauses rest
            return (.branch condition body more, total)
      | [] => .error (.malformed .ifChain .missingIf)
    | kind => .error (.malformed kind .notAStatement)
termination_by Node.sizeAll statements
decreasing_by
  · have := statement.size_pos
    simp; omega
  · have := statement.size_pos
    simp; omega
  · have := chosenCase_size _h
    simp; omega
  · have h₁ := condition_size _h
    have h₂ := statement.size_eq
    simp only [_hc, Node.sizeAll_cons] at h₂
    simp; omega
  · have h₁ := clause.size_pos
    have h₂ := statement.size_eq
    simp only [_hc, Node.sizeAll_cons] at h₂
    simp; omega

/-- The code of the clauses after the first, each of which goes on with `rest`. -/
def compileClauses (scene : Scene) (linked : Option Linked) (count : Nat)
    (clauses rest : List Node) : Except Fault (Branch × Nat) :=
  match clauses with
  | [] => .ok (.otherwise .giveUp, count)
  | clause :: clauses =>
    match clause.kind with
    | .ifClause =>
      match _h : scene.condition clause with
      | .error fault => .error fault
      | .ok (condition, statements) => do
        let (body, count) ← compile scene linked count (statements ++ rest)
        let (more, total) ← compileClauses scene linked count clauses rest
        return (.elseIf condition body more, total)
    | .elseClause => do
      let (body, total) ← compile scene linked count (clause.children ++ rest)
      match clauses with
      | [] => return (.otherwise body, total)
      | other :: _ => .error (.malformed other.kind .misplacedClause)
    | kind => .error (.malformed kind .misplacedClause)
termination_by Node.sizeAll clauses + Node.sizeAll rest
decreasing_by
  · have := condition_size _h
    simp; omega
  · have := clause.size_pos
    simp; omega
  · have := clause.size_eq
    simp; omega

end

/-- The code of the replacement side of a rule. -/
def replacement (scene : Scene) (node : Node) : Except Fault Body :=
  if node.kind = .replacement then do
    let (body, _) ← scene.compile none 0 node.children
    return body
  else .error (.malformed node.kind .notAReplacement)

end Scene

end Peephole

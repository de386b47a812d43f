import Peephole.Proofs.C.Machine
import Peephole.Replacement

/-!
# Proofs/Replacement/Meaning — what the replacement side of a rule says

A replacement is read here as it stands: its statements build instructions one after the other, out
of a match.  An instruction is built from the values of its arguments, a matched element is copied,
a switch goes the way of its chosen case, and a chain of conditions the way of the first that holds.
A chain in which none holds, and which has no else, gives up the match.

There are no nodes, numbers or links, and what follows a switch or a chain is run once, after it.
Where C leaves an operation undefined, so is the replacement (`none`).  An integer literal is worth
what C takes its digits for: a replacement has no reading of them of its own.
-/

namespace Peephole

/-! ## Expressions -/

namespace Arith

/-- The value of an integer literal: the one that the C implementation gives to its digits.  So
`010` is what a constant with a leading zero is there, and a literal that is too large has no
value. -/
def literal (arith : Arith) (text : String) : Option Int :=
  match text.toList with
  | '-' :: digits => do arith.negate (← arith.constant (String.ofList digits))
  | _ => arith.constant text

theorem literal_minus (arith : Arith) {text : String} {digits : List Char}
    (h : text.toList = '-' :: digits) :
    arith.literal text = (arith.constant (String.ofList digits)).bind arith.negate := by
  rw [literal, h]
  rfl

/-- A literal without a sign is what C reads. -/
theorem literal_plain (arith : Arith) {text : String}
    (h : ∀ digits, text.toList ≠ '-' :: digits) : arith.literal text = arith.constant text := by
  unfold literal
  split
  case h_1 digits hminus => exact absurd hminus (h digits)
  case h_2 => rfl

/-- Values under one operator, from the left. -/
def fold (arith : Arith) (op : Operator) : List (Option Int) → Option Int
  | [] => none
  | first :: rest => rest.foldl (arith.operate op) first

end Arith

namespace Node

mutual

/-- The value of an expression. -/
def value (arith : Arith) (arguments : String → Int) : Node → Option Int
  | mk kind text children =>
    match kind with
    | .integer => arith.literal text
    | .reference => some (arguments text)
    | kind =>
      match kind.operator? with
      | none => none
      | some op => arith.fold op (values arith arguments children)

/-- The values of expressions. -/
def values (arith : Arith) (arguments : String → Int) : List Node → List (Option Int)
  | [] => []
  | node :: nodes => value arith arguments node :: values arith arguments nodes

end

end Node

/-! ## Statements -/

/-- What a replacement makes of a match. -/
inductive Rewriting where
  /-- It gives up the match. -/
  | giveUp
  /-- It has built these instructions. -/
  | build (instrs : List Instr)
deriving DecidableEq, Repr

namespace Rewriting

/-- One rewriting after another, which is not reached where the first gives up. -/
def andThen (first second : Option Rewriting) : Option Rewriting := do
  match ← first with
  | giveUp => return giveUp
  | build instrs =>
    match ← second with
    | giveUp => return giveUp
    | build more => return build (instrs ++ more)

@[simp] theorem andThen_giveUp (second : Option Rewriting) :
    andThen (some giveUp) second = some giveUp := rfl

@[simp] theorem andThen_build_nil (second : Option Rewriting) :
    andThen (some (build [])) second = second := by
  rcases second with _ | _ | instrs <;> rfl

@[simp] theorem andThen_build_build (instrs more : List Instr) :
    andThen (some (build instrs)) (some (build more)) = some (build (instrs ++ more)) := rfl

/-- Rewritings may be grouped at will. -/
theorem andThen_assoc (first second third : Option Rewriting) :
    andThen (andThen first second) third = andThen first (andThen second third) := by
  rcases first with _ | _ | instrs
  · rfl
  · rfl
  · rcases second with _ | _ | more
    · rfl
    · rfl
    · rcases third with _ | _ | last
      · rfl
      · rfl
      · simp [andThen, List.append_assoc]

end Rewriting

/-- A match of a rule. -/
structure Match where
  /-- The elements of the match side. -/
  elements : List Node
  /-- The instructions of the list, from the first matched one on. -/
  input : List Instr
  /-- The captured arguments. -/
  arguments : String → Int

/-- The matched instruction of the element with a name. -/
def Match.named? (found : Match) (name : String) : Option Instr :=
  ((found.elements.zip found.input).find? fun pair =>
    pair.1.kind = .namedElement && pair.1.text == name).map (·.2)

namespace Scene

mutual

/-- What a statement makes of a match. -/
def rewriting (scene : Scene) (arith : Arith) (found : Match) (statement : Node) :
    Option Rewriting :=
  match statement.kind with
  | .construct => do
    let arguments ← (Node.values arith found.arguments statement.children).mapM id
    return .build [⟨statement.text, arguments⟩]
  | .reuse => do return .build [← found.named? statement.text]
  | .switch =>
    match _h : scene.chosenCase statement with
    | .error _ => none
    | .ok clause => rewritingAll scene arith found clause.children
  | .ifChain => firstClause scene arith found statement.children
  | _ => none
termination_by 2 * statement.size
decreasing_by
  · have := chosenCase_size _h
    omega
  · rw [statement.size_eq]
    omega

/-- What statements make of a match, one after the other. -/
def rewritingAll (scene : Scene) (arith : Arith) (found : Match) (statements : List Node) :
    Option Rewriting :=
  match statements with
  | [] => some (.build [])
  | statement :: rest =>
    Rewriting.andThen (rewriting scene arith found statement) (rewritingAll scene arith found rest)
termination_by 2 * Node.sizeAll statements + 1
decreasing_by
  · rw [Node.sizeAll_cons]
    omega
  · have := statement.size_pos
    rw [Node.sizeAll_cons]
    omega

/-- The way of the first clause whose condition holds. -/
def firstClause (scene : Scene) (arith : Arith) (found : Match) (clauses : List Node) :
    Option Rewriting :=
  match clauses with
  | [] => some .giveUp
  | clause :: more =>
    match clause.kind with
    | .ifClause =>
      match _h : clause.children with
      | [] => none
      | condition :: body => do
        let value ← condition.value arith found.arguments
        if value = 0 then firstClause scene arith found more
        else rewritingAll scene arith found body
    | .elseClause => rewritingAll scene arith found clause.children
    | _ => none
termination_by 2 * Node.sizeAll clauses + 1
decreasing_by
  · have := clause.size_pos
    rw [Node.sizeAll_cons]
    omega
  · rw [Node.sizeAll_cons, clause.size_eq, _h, Node.sizeAll_cons]
    omega
  · rw [Node.sizeAll_cons, clause.size_eq]
    omega

end

variable {scene : Scene} {arith : Arith} {found : Match}

@[simp] theorem rewritingAll_nil : scene.rewritingAll arith found [] = some (.build []) := by
  rw [rewritingAll]

theorem rewritingAll_cons (statement : Node) (rest : List Node) :
    scene.rewritingAll arith found (statement :: rest)
      = Rewriting.andThen (scene.rewriting arith found statement)
        (scene.rewritingAll arith found rest) := by
  rw [rewritingAll]

/-- Statements behind others build behind what those build. -/
theorem rewritingAll_append (first second : List Node) :
    scene.rewritingAll arith found (first ++ second)
      = Rewriting.andThen (scene.rewritingAll arith found first)
        (scene.rewritingAll arith found second) := by
  induction first with
  | nil => rw [List.nil_append, rewritingAll_nil, Rewriting.andThen_build_nil]
  | cons statement rest ih =>
    rw [List.cons_append, rewritingAll_cons, rewritingAll_cons, ih, Rewriting.andThen_assoc]

/-- A construction builds one instruction, with the values of its arguments. -/
theorem rewriting_construct {statement : Node} (h : statement.kind = .construct) :
    scene.rewriting arith found statement
      = ((Node.values arith found.arguments statement.children).mapM id).map fun arguments =>
        .build [⟨statement.text, arguments⟩] := by
  rw [rewriting, h]
  cases (Node.values arith found.arguments statement.children).mapM id <;> rfl

theorem rewriting_reuse {statement : Node} (h : statement.kind = .reuse) :
    scene.rewriting arith found statement
      = (found.named? statement.text).map fun instr => .build [instr] := by
  rw [rewriting, h]
  cases found.named? statement.text <;> rfl

/-- A switch rewrites as the clause that is chosen. -/
theorem rewriting_switch {statement clause : Node} (h : statement.kind = .switch)
    (hclause : scene.chosenCase statement = .ok clause) :
    scene.rewriting arith found statement = scene.rewritingAll arith found clause.children := by
  rw [rewriting, h]
  dsimp only
  split
  case h_1 heq => simp [hclause] at heq
  case h_2 heq =>
    rw [hclause] at heq
    rw [Except.ok.inj heq]

theorem rewriting_ifChain {statement : Node} (h : statement.kind = .ifChain) :
    scene.rewriting arith found statement
      = scene.firstClause arith found statement.children := by
  rw [rewriting, h]

@[simp] theorem firstClause_nil : scene.firstClause arith found [] = some .giveUp := by
  rw [firstClause]

/-- A clause whose condition is zero is passed over. -/
theorem firstClause_ifClause {clause condition : Node} {body more : List Node}
    (h : clause.kind = .ifClause) (hchildren : clause.children = condition :: body) :
    scene.firstClause arith found (clause :: more)
      = (condition.value arith found.arguments).bind fun value =>
        if value = 0 then scene.firstClause arith found more
        else scene.rewritingAll arith found body := by
  rw [firstClause, h]
  dsimp only
  split
  case h_1 heq => simp [hchildren] at heq
  case h_2 heq =>
    rw [hchildren] at heq
    obtain ⟨rfl, rfl⟩ := List.cons.inj heq
    rfl

theorem firstClause_elseClause {clause : Node} {more : List Node} (h : clause.kind = .elseClause) :
    scene.firstClause arith found (clause :: more)
      = scene.rewritingAll arith found clause.children := by
  rw [firstClause, h]

end Scene

end Peephole

import Peephole.Tree.Kind

/-!
# Tree/Node — the tree of a pattern file

A node is a kind, a text and its children, with no condition that they fit each other: the passes
over a tree report the shapes they do not take.  `references` is the traversal they share and
`size` the measure by which they end.
-/

namespace Peephole

/-- A node of a pattern file. -/
inductive Node where
  | mk (kind : Kind) (text : String) (children : List Node)

namespace Node

instance : Inhabited Node := ⟨mk .program "" []⟩

/-- What a node is. -/
def kind : Node → Kind
  | mk kind _ _ => kind

/-- The text of a node: a name, a literal, or nothing. -/
def text : Node → String
  | mk _ text _ => text

/-- The nodes below a node. -/
def children : Node → List Node
  | mk _ _ children => children

@[simp] theorem kind_mk (k : Kind) (t : String) (cs : List Node) : (mk k t cs).kind = k := rfl

@[simp] theorem text_mk (k : Kind) (t : String) (cs : List Node) : (mk k t cs).text = t := rfl

@[simp] theorem children_mk (k : Kind) (t : String) (cs : List Node) :
    (mk k t cs).children = cs := rfl

/-- A node without children. -/
abbrev leaf (kind : Kind) (text : String) : Node := mk kind text []

/-- A node whose text says nothing. -/
abbrev branch (kind : Kind) (children : List Node) : Node := mk kind "" children

/-- The child at an index. -/
def child? (node : Node) (index : Nat) : Option Node := node.children[index]?

/-- Whether the node can stand as an operand or a condition. -/
def isExpression (node : Node) : Bool := node.kind.isExpression

/-- The texts of the children. -/
def childTexts (node : Node) : List String := node.children.map text

/-- The rules of a pattern file, in source order. -/
def rules (program : Node) : List Node := program.children.filter (·.kind = .rule)

/-! ## Equality -/

mutual

/-- Whether two trees are the same. -/
def decEq : (first second : Node) → Decidable (first = second)
  | mk kind text children, mk kind' text' children' =>
    match decEqAll children children' with
    | isTrue h =>
      decidable_of_iff (kind = kind' ∧ text = text') (by rw [Node.mk.injEq, h]; simp)
    | isFalse h => isFalse fun heq => h (Node.mk.inj heq).2.2

/-- Whether two lists of trees are the same. -/
def decEqAll : (first second : List Node) → Decidable (first = second)
  | [], [] => isTrue rfl
  | [], _ :: _ => isFalse (by simp)
  | _ :: _, [] => isFalse (by simp)
  | node :: nodes, node' :: nodes' =>
    match decEq node node', decEqAll nodes nodes' with
    | isTrue h, isTrue h' => isTrue (by rw [h, h'])
    | isFalse h, _ => isFalse fun heq => h (List.cons.inj heq).1
    | _, isFalse h => isFalse fun heq => h (List.cons.inj heq).2

end

instance : DecidableEq Node := decEq

/-! ## References and size -/

mutual

/-- The names referred to in a tree, in order of appearance. -/
def references : Node → List String
  | mk kind text children => (if kind = .reference then [text] else []) ++ referencesAll children

/-- The names referred to in a list of trees. -/
def referencesAll : List Node → List String
  | [] => []
  | node :: nodes => references node ++ referencesAll nodes

end

mutual

/-- The number of nodes of a tree. -/
def size : Node → Nat
  | mk _ _ children => 1 + sizeAll children

/-- The number of nodes of a list of trees. -/
def sizeAll : List Node → Nat
  | [] => 0
  | node :: nodes => size node + sizeAll nodes

end

@[simp] theorem sizeAll_nil : sizeAll [] = 0 := rfl

@[simp] theorem sizeAll_cons (n : Node) (ns : List Node) :
    sizeAll (n :: ns) = n.size + sizeAll ns :=
  rfl

@[simp] theorem sizeAll_append (ns ms : List Node) :
    sizeAll (ns ++ ms) = sizeAll ns + sizeAll ms := by
  induction ns with
  | nil => simp
  | cons n ns ih => simp [ih, Nat.add_assoc]

theorem size_eq (n : Node) : n.size = 1 + sizeAll n.children := by
  cases n; rfl

theorem size_pos (n : Node) : 0 < n.size := by
  rw [size_eq]; omega

/-- A member is no larger than its list. -/
theorem size_le_sizeAll {n : Node} {ns : List Node} (h : n ∈ ns) : n.size ≤ sizeAll ns := by
  induction ns with
  | nil => simp at h
  | cons m ms ih =>
    rcases List.mem_cons.1 h with rfl | h
    · simp
    · have := ih h
      simp; omega

end Node

end Peephole

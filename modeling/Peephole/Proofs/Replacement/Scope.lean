import Peephole.Proofs.C.Scope
import Peephole.Proofs.Replacement.Simulation

/-!
# Proofs/Replacement/Scope — what the code of a replacement declares and uses

The statements behind a chain are compiled once per clause, under numbers of their own: code behind
`count` nodes declares `count + 1` up to its total, in the order of the text and each once
(`Compiles.declared_toStmts`).  Links may reach back to nodes of the blocks around them, so what is
linked is known wherever the code stands (`Compiles.inScope`).
-/

namespace Peephole

open C

/-! ## Expressions -/

theorem names_literalTerm (text : String) : (literalTerm text).names = [] := by
  unfold literalTerm
  split <;> rfl

/-- A chain of operators has the names of its operands. -/
theorem names_foldTerm (op : Operator) {terms : List Term} (h : terms ≠ []) :
    (foldTerm op terms).names = Term.namesAll terms := by
  have hfold : ∀ (rest : List Term) (first : Term),
      (rest.foldl (.binary op) first).names = first.names ++ Term.namesAll rest := by
    intro rest
    induction rest with
    | nil => simp [Term.namesAll]
    | cons next rest ih =>
      intro first
      rw [List.foldl_cons, ih, Term.names, Term.namesAll, List.append_assoc]
  cases terms with
  | nil => exact absurd rfl h
  | cons first rest => exact hfold rest first

mutual

/-- **An expression uses the locals of the names that its tree refers to.** -/
theorem names_toTerm : ∀ (node : Node) {expr : Expr}, node.toExpr = .ok expr →
    expr.toTerm.names ⊆ node.references.map argumentLocal
  | .mk kind text children, expr, hexpr => by
    rw [Node.toExpr.eq_def] at hexpr
    dsimp only at hexpr
    split at hexpr
    case h_1 =>
      obtain rfl := Except.ok.inj hexpr
      rw [Expr.toTerm, names_literalTerm]
      exact List.nil_subset _
    case h_2 =>
      obtain rfl := Except.ok.inj hexpr
      simp [Expr.toTerm, Term.names, Node.references]
    case h_3 =>
      split at hexpr
      case h_1 => simp at hexpr
      case h_2 op hop =>
        split at hexpr
        case isTrue => simp at hexpr
        case isFalse htwo =>
          obtain ⟨exprs, hexprs, heq⟩ := bind_eq_ok_iff.1 hexpr
          obtain rfl := Except.ok.inj heq
          have hall := namesAll_toTerms children hexprs
          have hne : Expr.toTerms exprs ≠ [] := by
            cases Node.toExprs_eq_ok_iff.1 hexprs with
            | nil => simp at htwo
            | cons => simp [Expr.toTerms]
          rw [Expr.toTerm, names_foldTerm op hne, Node.references, List.map_append]
          exact List.subset_append_of_subset_right _ hall

/-- The names in the C expressions are the locals of the references in their trees. -/
theorem namesAll_toTerms : ∀ (nodes : List Node) {exprs : List Expr},
    Node.toExprs nodes = .ok exprs →
    Term.namesAll (Expr.toTerms exprs) ⊆ (Node.referencesAll nodes).map argumentLocal
  | [], exprs, hexprs => by
    obtain rfl := Except.ok.inj hexprs
    exact List.nil_subset _
  | node :: nodes, exprs, hexprs => by
    rw [Node.toExprs] at hexprs
    obtain ⟨expr, hexpr, hmore⟩ := bind_eq_ok_iff.1 hexprs
    obtain ⟨exprs', hexprs', heq⟩ := bind_eq_ok_iff.1 hmore
    obtain rfl := Except.ok.inj heq
    rw [Expr.toTerms, Term.namesAll, Node.referencesAll, List.map_append]
    exact List.append_subset.2
      ⟨List.subset_append_of_subset_left _ (names_toTerm node hexpr),
        List.subset_append_of_subset_right _ (namesAll_toTerms nodes hexprs')⟩

end

namespace Scene

/-! ## Declarations -/

/-- The locals of the nodes behind the first `count`, up to `total`. -/
def nodeLocals (count total : Nat) : List String :=
  (List.range' (count + 1) (total - count)).map nodeLocal

theorem nodeLocals_self (count : Nat) : nodeLocals count count = [] := by
  simp [nodeLocals]

theorem nodeLocals_cons {count total : Nat} (h : count + 1 ≤ total) :
    nodeLocals count total = nodeLocal (count + 1) :: nodeLocals (count + 1) total := by
  rw [nodeLocals, nodeLocals, show total - count = total - (count + 1) + 1 by omega,
    List.range'_succ, List.map_cons]

/-- New nodes are numbered on from those before. -/
theorem nodeLocals_append {count mid total : Nat} (h : count ≤ mid) (hmore : mid ≤ total) :
    nodeLocals count mid ++ nodeLocals mid total = nodeLocals count total := by
  have hrange := @List.range'_append_1 (count + 1) (mid - count) (total - mid)
  rw [show count + 1 + (mid - count) = mid + 1 by omega,
    show mid - count + (total - mid) = total - count by omega] at hrange
  rw [nodeLocals, nodeLocals, nodeLocals, ← hrange, List.map_append]

theorem declared_splice (scene : Scene) (linked : Option Linked) :
    declared (scene.splice linked).toStmts = [] := by
  cases linked <;> rfl

theorem declared_build (linked : Option Linked) (node : Nat) (value : Value) (body : Body) :
    declared (build linked node value body).toStmts
      = nodeLocal node :: declared body.toStmts := by
  cases linked <;> rfl

theorem declared_branch (condition : Term) (yes no : List Stmt) :
    declared [.branch condition yes no] = declared yes ++ declared no :=
  List.append_nil _

mutual

/-- **Code declares its nodes in the order of their numbers, and nothing else.** -/
theorem Compiles.declared_toStmts {scene : Scene} : ∀ {linked : Option Linked} {count total : Nat}
    {statements : List Node} {body : Body}, Compiles scene linked count statements body total →
    declared body.toStmts = nodeLocals count total
  | _, _, _, _, _, .done linked count => by
    rw [declared_splice, nodeLocals_self]
  | _, _, _, _, _, .construct _ _ hrest => by
    rw [declared_build, hrest.declared_toStmts, nodeLocals_cons hrest.le]
  | _, _, _, _, _, .reuse _ _ hrest => by
    rw [declared_build, hrest.declared_toStmts, nodeLocals_cons hrest.le]
  | _, _, _, _, _, .switch _ _ hrest => hrest.declared_toStmts
  | _, _, _, _, _, .ifChain _ _ _ _ hbody hmore => by
    rw [Body.toStmts, declared_branch, hbody.declared_toStmts, hmore.declared_toStmts,
      nodeLocals_append hbody.le hmore.le]

/-- **Clauses declare the nodes they count**, each once. -/
theorem CompilesClauses.declared_toStmts {scene : Scene} : ∀ {linked : Option Linked}
    {count total : Nat} {clauses rest : List Node} {more : Branch},
    CompilesClauses scene linked count clauses rest more total →
    declared more.toStmts = nodeLocals count total
  | _, _, _, _, _, _, .giveUp _ count _ => (nodeLocals_self count).symm
  | _, _, _, _, _, _, .elseIf _ _ hbody hmore => by
    rw [Branch.toStmts, declared_branch, hbody.declared_toStmts, hmore.declared_toStmts,
      nodeLocals_append hbody.le hmore.le]
  | _, _, _, _, _, _, .otherwise _ hbody => by
    rw [Branch.toStmts, hbody.declared_toStmts]

end

/-! ## Uses -/

/-- **What the match side leaves to the code of a replacement**, under the names known. -/
structure Sees (scene : Scene) (known : List String) : Prop where
  parameter : "c" ∈ known
  null : "NULL" ∈ known
  cursor : ∀ element ∈ scene.layout.elements, element.cursor ∈ known
  captured : ∀ name, scene.layout.isCaptured name = true → argumentLocal name ∈ known

/-- The ends of the nodes linked so far are known. -/
def SeesLinked (known : List String) (linked : Option Linked) : Prop :=
  ∀ nodes ∈ linked, nodeLocal nodes.head ∈ known ∧ nodeLocal nodes.last ∈ known

variable {scene : Scene} {known : List String} {linked : Option Linked}

/-- What a scene needs is still in sight when a node is declared. -/
theorem Sees.declare (h : Sees scene known) (node : Nat) :
    Sees scene (known ++ [nodeLocal node]) where
  parameter := List.mem_append_left _ h.parameter
  null := List.mem_append_left _ h.null
  cursor element helement := List.mem_append_left _ (h.cursor element helement)
  captured name hname := List.mem_append_left _ (h.captured name hname)

/-- The node just made is in sight, and is the last one linked. -/
theorem SeesLinked.extend (h : SeesLinked known linked) (node : Nat) :
    SeesLinked (known ++ [nodeLocal node]) (some (extend linked node)) := by
  intro nodes hnodes
  obtain rfl := Option.some.inj hnodes
  refine ⟨?_, by simp [Scene.extend]⟩
  cases linked with
  | none => simp [Scene.extend]
  | some earlier => exact List.mem_append_left _ (h earlier rfl).1

/-- References to captured names are served by their locals. -/
theorem Sees.references (h : Sees scene known) {references used : List String}
    (hused : used ⊆ references.map argumentLocal)
    (hcaptured : ∀ name ∈ references, scene.layout.isCaptured name = true) : used ⊆ known := by
  intro name hname
  obtain ⟨reference, hreference, rfl⟩ := List.mem_map.1 (hused hname)
  exact h.captured reference (hcaptured reference hreference)

/-- The arguments of a new node use only captures. -/
theorem Sees.make (h : Sees scene known) {nodes : List Node} {exprs : List Expr}
    (harguments : scene.arguments nodes = .ok exprs) (opcode : String) :
    (Value.make opcode exprs).toTerm.names ⊆ known := by
  obtain ⟨hexprs, hcaptured⟩ := arguments_toExprs harguments
  rw [Value.toTerm, Term.names, Term.namesAll_append]
  exact List.append_subset.2 ⟨h.references (namesAll_toTerms nodes hexprs) hcaptured,
    by simp [Term.namesAll, Term.names, h.null]⟩

theorem Sees.condition (h : Sees scene known) {clause : Node} {expr : Expr} {body : List Node}
    (hcondition : scene.condition clause = .ok (expr, body)) : expr.toTerm.names ⊆ known := by
  obtain ⟨expression, -, -, hargument⟩ := condition_eq_ok_iff.1 hcondition
  obtain ⟨hcaptured, hexpr⟩ := argument_eq_ok_iff.1 hargument
  exact h.references (names_toTerm expression hexpr) hcaptured

/-- Linking to the rest and returning use only what is in sight. -/
theorem Sees.splice (h : Sees scene known) (hlinked : SeesLinked known linked) :
    Scoped known (scene.splice linked).toStmts := by
  cases linked with
  | none =>
    simp [Scene.splice, Body.toStmts, Scoped, Stmt.Scoped, Term.names, Term.namesAll, h.parameter,
      h.null]
  | some nodes =>
    obtain ⟨hhead, hlast⟩ := hlinked nodes rfl
    have hcursor : scene.layout.lastCursor ∈ known :=
      h.cursor _ (List.getLast_mem scene.layout.nonempty)
    refine ⟨⟨hlast, ?_⟩, ?_⟩
    · simpa [Term.names, Term.namesAll] using hcursor
    · simp [Body.toStmts, Scoped, Stmt.Scoped, Stmt.introduced, Term.names, Term.namesAll,
        h.parameter, hhead]

/-- A node is declared and linked before the code behind it. -/
theorem scoped_build {node : Nat} {value : Value} {body : Body}
    (hvalue : value.toTerm.names ⊆ known) (hlinked : SeesLinked known linked)
    (hbody : Scoped (known ++ [nodeLocal node]) body.toStmts) :
    Scoped known (build linked node value body).toStmts := by
  cases linked with
  | none => exact ⟨fun name hname => hvalue hname, hbody⟩
  | some nodes =>
    have hlast := List.mem_append_left [nodeLocal node] (hlinked nodes rfl).2
    refine ⟨fun name hname => hvalue hname, ⟨hlast, ?_⟩, ?_⟩
    · simp [Term.names, Stmt.introduced]
    · rwa [Stmt.introduced, Stmt.introduced, List.append_nil]

theorem scoped_branch {condition : Term} {yes no : List Stmt} (hcondition : condition.names ⊆ known)
    (hyes : Scoped known yes) (hno : Scoped known no) :
    Scoped known [.branch condition yes no] :=
  ⟨⟨fun _ hname => hcondition hname, hyes, hno⟩, trivial⟩

mutual

/-- **Code uses what the match side leaves to it and the nodes declared before.** -/
theorem Compiles.inScope : ∀ {known : List String} {linked : Option Linked} {count total : Nat}
    {statements : List Node} {body : Body}, Compiles scene linked count statements body total →
    Sees scene known → SeesLinked known linked → Scoped known body.toStmts
  | _, _, _, _, _, _, .done _ _, h, hlinked => h.splice hlinked
  | _, _, count, _, _, _, .construct _ harguments hrest, h, hlinked =>
    scoped_build (h.make harguments _) hlinked
      (hrest.inScope (h.declare (count + 1)) (hlinked.extend (count + 1)))
  | known, _, count, _, _, _, .reuse _ helement hrest, h, hlinked => by
    have hcursor := h.cursor _ (List.mem_of_find?_eq_some helement)
    refine scoped_build ?_ hlinked
      (hrest.inScope (h.declare (count + 1)) (hlinked.extend (count + 1)))
    simpa [Value.toTerm, Term.names, Term.namesAll] using hcursor
  | _, _, _, _, _, _, .switch _ _ hrest, h, hlinked => hrest.inScope h hlinked
  | _, _, _, _, _, _, .ifChain _ _ _ hcondition hbody hmore, h, hlinked =>
    scoped_branch (h.condition hcondition) (hbody.inScope h hlinked) (hmore.inScope h hlinked)

/-- **Clauses are in scope**, on each of their branches. -/
theorem CompilesClauses.inScope : ∀ {known : List String} {linked : Option Linked}
    {count total : Nat} {clauses rest : List Node} {more : Branch},
    CompilesClauses scene linked count clauses rest more total →
    Sees scene known → SeesLinked known linked → Scoped known more.toStmts
  | _, _, _, _, _, _, _, .giveUp _ _ _, _, _ => ⟨by simp [Stmt.Scoped, Term.names], trivial⟩
  | _, _, _, _, _, _, _, .elseIf _ hcondition hbody hmore, h, hlinked =>
    scoped_branch (h.condition hcondition) (hbody.inScope h hlinked) (hmore.inScope h hlinked)
  | _, _, _, _, _, _, _, .otherwise _ hbody, h, hlinked => hbody.inScope h hlinked

end

end Scene

end Peephole

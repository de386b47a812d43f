import Mathlib.Logic.Relation
import Peephole.Proofs.Replacement.Compiles

/-!
# Proofs/Replacement/Reaches — where the compilation of a replacement gets to

A compilation goes from statement to statement: into the chosen case of a switch, into the clauses
of a chain one after the other, and on to what stands behind.  `Step` says what it does next, and
the spots it reaches are those some steps away.

Steps carry faults in both directions.  What fails at a reached spot fails as a whole
(`Reaches.fails`), and a compilation of statements of the language that fails does so at a reached
spot where the first statement itself is to blame (`exists_reaches_of_fails`).
-/

namespace Peephole

/-! ## The language -/

/-- Trees have expressions if each of them does. -/
theorem Node.exists_toExprs {nodes : List Node}
    (h : ∀ node ∈ nodes, ∃ expr, node.toExpr = .ok expr) :
    ∃ exprs, Node.toExprs nodes = .ok exprs := by
  induction nodes with
  | nil => exact ⟨[], rfl⟩
  | cons node nodes ih =>
    rw [List.forall_mem_cons] at h
    obtain ⟨expr, hexpr⟩ := h.1
    obtain ⟨exprs, hexprs⟩ := ih h.2
    exact ⟨expr :: exprs, by rw [Node.toExprs, hexpr, hexprs]; rfl⟩

/-- Each expression of the grammar has one in C. -/
theorem IsExpression.exists_toExpr {node : Node} (h : IsExpression node) :
    ∃ expr, node.toExpr = .ok expr := by
  induction h with
  | integer => exact ⟨_, rfl⟩
  | reference => exact ⟨_, rfl⟩
  | operation hop two _ _ ih =>
    obtain ⟨exprs, hexprs⟩ := Node.exists_toExprs ih
    exact ⟨_, (Node.toExpr_operation hop two).2 ⟨exprs, hexprs, rfl⟩⟩

/-- An expression of the grammar passes for one. -/
theorem IsExpression.isExpression {node : Node} (h : IsExpression node) :
    node.isExpression = true := by
  cases h with
  | integer => rfl
  | reference => rfl
  | @operation kind op _ hop => cases kind <;> first | rfl | cases hop

/-- The clauses of a chain from some clause on: conditions, and an else at the end if any. -/
def AreClauses (elements : List String) (clauses : List Node) : Prop :=
  ∃ conditions last, clauses = conditions ++ Option.toList last ∧
    (∀ clause ∈ conditions, IsIfClause elements clause) ∧
    ∀ clause ∈ last, IsElseClause elements clause

/-- The clauses of a chain with a condition are if clauses, and clauses follow. -/
theorem AreClauses.ifClause {elements : List String} {clause : Node} {clauses : List Node}
    (h : AreClauses elements (clause :: clauses)) (hkind : clause.kind = .ifClause) :
    IsIfClause elements clause ∧ AreClauses elements clauses := by
  obtain ⟨_ | ⟨first, conditions⟩, last, hclauses, hall, hlast⟩ := h
  · rw [List.nil_append] at hclauses
    obtain ⟨-⟩ := hlast clause (Option.mem_toList.1 (hclauses ▸ List.mem_cons_self))
    cases hkind
  · obtain ⟨rfl, rfl⟩ := List.cons.inj hclauses
    rw [List.forall_mem_cons] at hall
    exact ⟨hall.1, conditions, last, rfl, hall.2, hlast⟩

/-- A clause of a chain without a condition is its last one. -/
theorem AreClauses.elseClause {elements : List String} {clause : Node} {clauses : List Node}
    (h : AreClauses elements (clause :: clauses)) (hkind : clause.kind ≠ .ifClause) :
    IsElseClause elements clause ∧ clauses = [] := by
  obtain ⟨_ | ⟨first, conditions⟩, last, hclauses, hall, hlast⟩ := h
  · rw [List.nil_append] at hclauses
    cases last with
    | none => cases hclauses
    | some only =>
      obtain ⟨rfl, rfl⟩ := List.cons.inj hclauses
      exact ⟨hlast clause rfl, rfl⟩
  · obtain ⟨rfl, -⟩ := List.cons.inj hclauses
    obtain ⟨-, -⟩ := hall clause List.mem_cons_self
    exact absurd rfl hkind

/-- The arguments of a construction are expressions. -/
theorem IsStatement.isExpression {elements : List String} {statement : Node}
    (h : IsStatement elements statement) (hkind : statement.kind = .construct) :
    ∀ argument ∈ statement.children, IsExpression argument := by
  cases h with
  | construct _ hall => exact hall
  | _ => cases hkind

/-- A chain starts with an if clause. -/
theorem IsStatement.areClauses {elements : List String} {statement : Node}
    (h : IsStatement elements statement) (hkind : statement.kind = .ifChain) :
    AreClauses elements statement.children ∧
      ∃ clause clauses, statement.children = clause :: clauses ∧ clause.kind = .ifClause := by
  cases h with
  | @ifChain clauses last hne hall hlast =>
    refine ⟨⟨clauses, last, rfl, hall, hlast⟩, ?_⟩
    obtain ⟨first, others, rfl⟩ := List.exists_cons_of_ne_nil hne
    refine ⟨first, others ++ last.toList, rfl, ?_⟩
    obtain ⟨-, -⟩ := hall first List.mem_cons_self
    rfl
  | _ => cases hkind

namespace Scene

/-- A spot in a compilation: statements still to come, or clauses of a chain and the statements
behind it. -/
inductive Spot where
  | atStatements (linked : Option Linked) (count : Nat) (statements : List Node)
  | atClauses (linked : Option Linked) (count : Nat) (clauses rest : List Node)

namespace Spot

/-- The spot where the compilation of a replacement side starts. -/
def start (node : Node) : Spot := .atStatements none 0 node.children

/-- The compilation from a spot on ends in a fault. -/
def Fails (scene : Scene) : Spot → Fault → Prop
  | .atStatements linked count statements, fault =>
    scene.compile linked count statements = .error fault
  | .atClauses linked count clauses rest, fault =>
    scene.compileClauses linked count clauses rest = .error fault

/-- The number of nodes still to come. -/
def size : Spot → Nat
  | .atStatements _ _ statements => Node.sizeAll statements
  | .atClauses _ _ clauses rest => Node.sizeAll clauses + Node.sizeAll rest

/-- What is still to come is of the language of a rule whose elements have the given names. -/
def InLanguage (elements : List String) : Spot → Prop
  | .atStatements _ _ statements => ∀ statement ∈ statements, IsStatement elements statement
  | .atClauses _ _ clauses rest =>
    AreClauses elements clauses ∧ ∀ statement ∈ rest, IsStatement elements statement

end Spot

/-- **One step of a compilation.**  It comes to the clauses behind a clause when that clause, with
the statements behind the chain, has its code. -/
inductive Step (scene : Scene) : Spot → Spot → Prop where
  | construct {linked : Option Linked} {count : Nat} {statement : Node} {rest : List Node}
    {arguments : List Expr} (hkind : statement.kind = .construct)
    (harguments : scene.arguments statement.children = .ok arguments) :
    Step scene (.atStatements linked count (statement :: rest))
      (.atStatements (some (extend linked (count + 1))) (count + 1) rest)
  | reuse {linked : Option Linked} {count : Nat} {statement : Node} {rest : List Node}
    {element : Element} (hkind : statement.kind = .reuse)
    (helement : scene.layout.named? statement.text = some element) :
    Step scene (.atStatements linked count (statement :: rest))
      (.atStatements (some (extend linked (count + 1))) (count + 1) rest)
  | switch {linked : Option Linked} {count : Nat} {statement clause : Node} {rest : List Node}
    (hkind : statement.kind = .switch) (hclause : scene.chosenCase statement = .ok clause) :
    Step scene (.atStatements linked count (statement :: rest))
      (.atStatements linked count (clause.children ++ rest))
  | chain {linked : Option Linked} {count : Nat} {statement clause : Node}
    {clauses statements rest : List Node} {condition : Expr} (hkind : statement.kind = .ifChain)
    (hchildren : statement.children = clause :: clauses) (hclause : clause.kind = .ifClause)
    (hcondition : scene.condition clause = .ok (condition, statements)) :
    Step scene (.atStatements linked count (statement :: rest))
      (.atStatements linked count (statements ++ rest))
  | behindFirst {linked : Option Linked} {count mid : Nat} {statement clause : Node}
    {clauses statements rest : List Node} {condition : Expr} {body : Body}
    (hkind : statement.kind = .ifChain) (hchildren : statement.children = clause :: clauses)
    (hclause : clause.kind = .ifClause)
    (hcondition : scene.condition clause = .ok (condition, statements))
    (hbody : scene.compile linked count (statements ++ rest) = .ok (body, mid)) :
    Step scene (.atStatements linked count (statement :: rest)) (.atClauses linked mid clauses rest)
  | elseIf {linked : Option Linked} {count : Nat} {clause : Node}
    {clauses statements rest : List Node} {condition : Expr} (hclause : clause.kind = .ifClause)
    (hcondition : scene.condition clause = .ok (condition, statements)) :
    Step scene (.atClauses linked count (clause :: clauses) rest)
      (.atStatements linked count (statements ++ rest))
  | behindElseIf {linked : Option Linked} {count mid : Nat} {clause : Node}
    {clauses statements rest : List Node} {condition : Expr} {body : Body}
    (hclause : clause.kind = .ifClause)
    (hcondition : scene.condition clause = .ok (condition, statements))
    (hbody : scene.compile linked count (statements ++ rest) = .ok (body, mid)) :
    Step scene (.atClauses linked count (clause :: clauses) rest)
      (.atClauses linked mid clauses rest)
  | otherwise {linked : Option Linked} {count : Nat} {clause : Node} {clauses rest : List Node}
    (hclause : clause.kind = .elseClause) :
    Step scene (.atClauses linked count (clause :: clauses) rest)
      (.atStatements linked count (clause.children ++ rest))

/-- The spots that a compilation gets to. -/
def Reaches (scene : Scene) : Spot → Spot → Prop := Relation.ReflTransGen (Step scene)

variable {scene : Scene} {spot next : Spot} {fault : Fault}

/-! ## One step -/

/-- A construction makes a node and links it to the one before. -/
theorem compile_construct {linked : Option Linked} {count : Nat} {statement : Node}
    {rest : List Node} (hkind : statement.kind = .construct) :
    scene.compile linked count (statement :: rest) = do
      let arguments ← scene.arguments statement.children
      let (body, total) ← scene.compile (some (extend linked (count + 1))) (count + 1) rest
      return (build linked (count + 1) (.make statement.text arguments) body, total) := by
  rw [compile]
  simp only [hkind]

/-- A reuse copies the node at the cursor of its element, which has to be there. -/
theorem compile_reuse {linked : Option Linked} {count : Nat} {statement : Node} {rest : List Node}
    (hkind : statement.kind = .reuse) :
    scene.compile linked count (statement :: rest) =
      match scene.layout.named? statement.text with
      | none => .error (.undefined statement.text)
      | some element => do
        let (body, total) ← scene.compile (some (extend linked (count + 1))) (count + 1) rest
        return (build linked (count + 1) (.copy element.cursor) body, total) := by
  rw [compile]
  cases scene.layout.named? statement.text with
  | none => simp only [hkind]
  | some element => simp only [hkind]

/-- A switch compiles as the clause that is chosen, with what stands behind it. -/
theorem compile_switch {linked : Option Linked} {count : Nat} {statement : Node} {rest : List Node}
    (hkind : statement.kind = .switch) :
    scene.compile linked count (statement :: rest) =
      scene.chosenCase statement >>= fun clause =>
        scene.compile linked count (clause.children ++ rest) := by
  rw [compile]
  simp only [hkind]
  split
  case h_1 hclause => rw [hclause]; rfl
  case h_2 hclause => rw [hclause]; rfl

/-- A chain compiles its first clause, and then the others with the count that it leaves. -/
theorem compile_chain {linked : Option Linked} {count : Nat} {statement clause : Node}
    {clauses rest : List Node} (hkind : statement.kind = .ifChain)
    (hchildren : statement.children = clause :: clauses) (hclause : clause.kind = .ifClause) :
    scene.compile linked count (statement :: rest) = do
      let (condition, statements) ← scene.condition clause
      let (body, count) ← scene.compile linked count (statements ++ rest)
      let (more, total) ← scene.compileClauses linked count clauses rest
      return (.branch condition body more, total) := by
  rw [compile]
  simp only [hkind]
  split
  case h_2 hnil => simp [hchildren] at hnil
  case h_1 hcons =>
    obtain ⟨rfl, rfl⟩ := List.cons.inj (hchildren.symm.trans hcons)
    rw [if_neg (not_not.2 hclause)]
    split
    case h_1 hcondition => rw [hcondition]; rfl
    case h_2 hcondition => rw [hcondition]; rfl

/-- A further clause with a condition is an `else if`. -/
theorem compileClauses_elseIf {linked : Option Linked} {count : Nat} {clause : Node}
    {clauses rest : List Node} (hclause : clause.kind = .ifClause) :
    scene.compileClauses linked count (clause :: clauses) rest = do
      let (condition, statements) ← scene.condition clause
      let (body, count) ← scene.compile linked count (statements ++ rest)
      let (more, total) ← scene.compileClauses linked count clauses rest
      return (.elseIf condition body more, total) := by
  rw [compileClauses]
  simp only [hclause]
  split
  case h_1 hcondition => rw [hcondition]; rfl
  case h_2 hcondition => rw [hcondition]; rfl

/-- A clause without a condition is the last one. -/
theorem compileClauses_otherwise {linked : Option Linked} {count : Nat} {clause : Node}
    {clauses rest : List Node} (hclause : clause.kind = .elseClause) :
    scene.compileClauses linked count (clause :: clauses) rest =
      scene.compile linked count (clause.children ++ rest) >>= fun (body, total) =>
        match clauses with
        | [] => return (.otherwise body, total)
        | other :: _ => .error (.malformed other.kind .misplacedClause) := by
  rw [compileClauses]
  cases clauses with
  | nil => simp only [hclause]
  | cons other clauses => simp only [hclause]

/-- **A fault at the next spot is a fault here.** -/
theorem Step.fails (h : Step scene spot next) (hfails : next.Fails scene fault) :
    spot.Fails scene fault := by
  cases h with
  | construct hkind harguments =>
    refine (compile_construct hkind).trans (bind_eq_error_iff.2 (.inr ⟨_, harguments, ?_⟩))
    exact bind_eq_error_iff.2 (.inl hfails)
  | reuse hkind helement =>
    refine (compile_reuse hkind).trans ?_
    rw [helement]
    exact bind_eq_error_iff.2 (.inl hfails)
  | switch hkind hclause =>
    exact (compile_switch hkind).trans (bind_eq_error_iff.2 (.inr ⟨_, hclause, hfails⟩))
  | chain hkind hchildren hclause hcondition =>
    refine (compile_chain hkind hchildren hclause).trans
      (bind_eq_error_iff.2 (.inr ⟨_, hcondition, ?_⟩))
    exact bind_eq_error_iff.2 (.inl hfails)
  | behindFirst hkind hchildren hclause hcondition hbody =>
    refine (compile_chain hkind hchildren hclause).trans
      (bind_eq_error_iff.2 (.inr ⟨_, hcondition, ?_⟩))
    refine bind_eq_error_iff.2 (.inr ⟨_, hbody, ?_⟩)
    exact bind_eq_error_iff.2 (.inl hfails)
  | elseIf hclause hcondition =>
    refine (compileClauses_elseIf hclause).trans (bind_eq_error_iff.2 (.inr ⟨_, hcondition, ?_⟩))
    exact bind_eq_error_iff.2 (.inl hfails)
  | behindElseIf hclause hcondition hbody =>
    refine (compileClauses_elseIf hclause).trans (bind_eq_error_iff.2 (.inr ⟨_, hcondition, ?_⟩))
    refine bind_eq_error_iff.2 (.inr ⟨_, hbody, ?_⟩)
    exact bind_eq_error_iff.2 (.inl hfails)
  | otherwise hclause =>
    exact (compileClauses_otherwise hclause).trans (bind_eq_error_iff.2 (.inl hfails))

/-- **What fails at a reached spot fails as a whole.** -/
theorem Reaches.fails (h : scene.Reaches spot next) (hfails : next.Fails scene fault) :
    spot.Fails scene fault := by
  induction h using Relation.ReflTransGen.head_induction_on with
  | refl => exact hfails
  | head hstep _ ih => exact hstep.fails ih

theorem replacement_eq_error {node : Node} (hkind : node.kind = .replacement)
    (h : scene.Reaches (.start node) spot) (hfails : spot.Fails scene fault) :
    scene.replacement node = .error fault := by
  rw [replacement, if_pos hkind]
  exact bind_eq_error_iff.2 (.inl (h.fails hfails))

/-- A step leaves fewer nodes to come. -/
theorem Step.size_lt (h : Step scene spot next) : next.size < spot.size := by
  cases h with
  | @construct _ _ statement | @reuse _ _ statement =>
    have := statement.size_pos
    simp only [Spot.size, Node.sizeAll_cons]
    omega
  | switch _ hclause =>
    have := chosenCase_size hclause
    simp only [Spot.size, Node.sizeAll_cons, Node.sizeAll_append]
    omega
  | @chain _ _ statement _ _ _ _ _ _ hchildren _ hcondition =>
    have := condition_size hcondition
    have hsize := statement.size_eq
    simp only [hchildren, Node.sizeAll_cons] at hsize
    simp only [Spot.size, Node.sizeAll_cons, Node.sizeAll_append]
    omega
  | @behindFirst _ _ _ statement clause _ _ _ _ _ _ hchildren =>
    have := clause.size_pos
    have hsize := statement.size_eq
    simp only [hchildren, Node.sizeAll_cons] at hsize
    simp only [Spot.size, Node.sizeAll_cons]
    omega
  | elseIf _ hcondition =>
    have := condition_size hcondition
    simp only [Spot.size, Node.sizeAll_cons, Node.sizeAll_append]
    omega
  | @behindElseIf _ _ _ clause =>
    have := clause.size_pos
    simp only [Spot.size, Node.sizeAll_cons]
    omega
  | @otherwise _ _ clause =>
    have := clause.size_eq
    simp only [Spot.size, Node.sizeAll_cons, Node.sizeAll_append]
    omega

/-! ## Statements of the language -/

/-- **A step stays in the language.** -/
theorem Step.inLanguage {elements : List String} (h : Step scene spot next)
    (hspot : spot.InLanguage elements) : next.InLanguage elements := by
  cases h with
  | construct | reuse => exact (List.forall_mem_cons.1 hspot).2
  | switch hkind hclause =>
    obtain ⟨hstatement, hrest⟩ := List.forall_mem_cons.1 hspot
    obtain ⟨discriminant, clauses, hchildren, hmem⟩ := chosenCase_mem hclause
    refine List.forall_mem_append.2 ⟨?_, hrest⟩
    cases hstatement with
    | switch _ hall =>
      obtain ⟨rfl, rfl⟩ := List.cons.inj hchildren
      obtain ⟨-, hbody⟩ := hall _ hmem
      exact hbody
    | _ => cases hkind
  | chain hkind hchildren hclause hcondition =>
    obtain ⟨hstatement, hrest⟩ := List.forall_mem_cons.1 hspot
    have hclauses := (hstatement.areClauses hkind).1
    rw [hchildren] at hclauses
    exact List.forall_mem_append.2
      ⟨(readable_condition hcondition (hclauses.ifClause hclause).1).2, hrest⟩
  | behindFirst hkind hchildren hclause =>
    obtain ⟨hstatement, hrest⟩ := List.forall_mem_cons.1 hspot
    have hclauses := (hstatement.areClauses hkind).1
    rw [hchildren] at hclauses
    exact ⟨(hclauses.ifClause hclause).2, hrest⟩
  | elseIf hclause hcondition =>
    exact List.forall_mem_append.2
      ⟨(readable_condition hcondition (hspot.1.ifClause hclause).1).2, hspot.2⟩
  | behindElseIf hclause => exact ⟨(hspot.1.ifClause hclause).2, hspot.2⟩
  | otherwise hclause =>
    obtain ⟨hbody⟩ := (hspot.1.elseClause (by simp [hclause])).1
    exact List.forall_mem_append.2 ⟨hbody, hspot.2⟩

theorem Reaches.inLanguage {elements : List String} (h : scene.Reaches spot next)
    (hspot : spot.InLanguage elements) : next.InLanguage elements := by
  induction h with
  | refl => exact hspot
  | tail _ hstep ih => exact hstep.inLanguage ih

/-- The replacement side of a rule is of the language of its match side. -/
theorem inLanguage_of_isRule {rule pattern node : Node} (h : IsRule rule)
    (hpattern : rule.matchSide = .ok pattern) (hnode : rule.child? 1 = some node) :
    node.kind = .replacement ∧
      (Spot.start node).InLanguage (Node.elementNames pattern.children) := by
  obtain ⟨-, -, -, hbody⟩ := h
  obtain rfl := Except.ok.inj hpattern
  obtain rfl := Option.some.inj hnode
  exact ⟨rfl, hbody⟩

/-! ## Blame -/

/-- An expression refers to what the match side does not capture. -/
def Refers (scene : Scene) (expression : Node) (name : String) : Prop :=
  name ∈ expression.references ∧ scene.layout.isCaptured name = false

/-- **The first statement of a spot, or the condition of its first clause, is to blame.** -/
inductive Blames (scene : Scene) : Spot → Fault → Prop where
  | argument {linked : Option Linked} {count : Nat} {statement expression : Node}
    {rest : List Node} {name : String} (hkind : statement.kind = .construct)
    (hargument : expression ∈ statement.children) (hname : scene.Refers expression name) :
    Blames scene (.atStatements linked count (statement :: rest)) (.undefined name)
  | reuse {linked : Option Linked} {count : Nat} {statement : Node} {rest : List Node}
    (hkind : statement.kind = .reuse) (hnone : scene.layout.named? statement.text = none) :
    Blames scene (.atStatements linked count (statement :: rest)) (.undefined statement.text)
  | switch {linked : Option Linked} {count : Nat} {statement : Node} {rest : List Node}
    {fault : Fault} (hkind : statement.kind = .switch)
    (hclause : scene.chosenCase statement = .error fault) :
    Blames scene (.atStatements linked count (statement :: rest)) fault
  | condition {linked : Option Linked} {count : Nat} {statement clause expression : Node}
    {clauses body rest : List Node} {name : String} (hkind : statement.kind = .ifChain)
    (hchildren : statement.children = clause :: clauses)
    (hcondition : clause.children = expression :: body) (hname : scene.Refers expression name) :
    Blames scene (.atStatements linked count (statement :: rest)) (.undefined name)
  | elseIf {linked : Option Linked} {count : Nat} {clause expression : Node}
    {clauses body rest : List Node} {name : String} (hkind : clause.kind = .ifClause)
    (hcondition : clause.children = expression :: body) (hname : scene.Refers expression name) :
    Blames scene (.atClauses linked count (clause :: clauses) rest) (.undefined name)

/-- An expression of the grammar fails only for a name that is not captured. -/
theorem argument_eq_error {expression : Node} (h : IsExpression expression)
    (hfault : scene.argument expression = .error fault) :
    ∃ name, scene.Refers expression name ∧ fault = .undefined name := by
  rcases bind_eq_error_iff.1 hfault with hfault | ⟨-, -, hfault⟩
  · unfold checkCaptured at hfault
    split at hfault
    case h_1 name hfind =>
      refine ⟨name, ⟨List.mem_of_find?_eq_some hfind, ?_⟩, (Except.error.inj hfault).symm⟩
      simpa using List.find?_some hfind
    case h_2 => cases hfault
  · obtain ⟨expr, hexpr⟩ := h.exists_toExpr
    rw [hexpr] at hfault
    cases hfault

/-- Arguments of the grammar fail only for a name that is not captured. -/
theorem arguments_eq_error {expressions : List Node}
    (h : ∀ expression ∈ expressions, IsExpression expression)
    (hfault : scene.arguments expressions = .error fault) :
    ∃ expression ∈ expressions, ∃ name, scene.Refers expression name ∧ fault = .undefined name := by
  induction expressions with
  | nil => cases hfault
  | cons expression expressions ih =>
    rw [List.forall_mem_cons] at h
    rcases bind_eq_error_iff.1 hfault with hfault | ⟨expr, -, hfault⟩
    · exact ⟨expression, List.mem_cons_self, argument_eq_error h.1 hfault⟩
    · rcases bind_eq_error_iff.1 hfault with hfault | ⟨exprs, -, hfault⟩
      · obtain ⟨other, hother, hname⟩ := ih h.2 hfault
        exact ⟨other, List.mem_cons_of_mem _ hother, hname⟩
      · cases hfault

/-- A condition of the grammar fails only for a name that is not captured. -/
theorem condition_eq_error {elements : List String} {clause : Node}
    (h : IsIfClause elements clause) (hfault : scene.condition clause = .error fault) :
    ∃ expression body, clause.children = expression :: body ∧
      ∃ name, scene.Refers expression name ∧ fault = .undefined name := by
  obtain @⟨expression, body, hexpression, -⟩ := h
  refine ⟨expression, body, rfl, ?_⟩
  unfold condition at hfault
  dsimp only [Node.children_mk] at hfault
  rw [if_pos hexpression.isExpression] at hfault
  rcases bind_eq_error_iff.1 hfault with hfault | ⟨expr, -, hfault⟩
  · exact argument_eq_error hexpression hfault
  · cases hfault

/-- A clause fails in its condition, in its code, or in the clauses behind it. -/
theorem clause_eq_error {α : Type} {linked : Option Linked} {count : Nat} {clause : Node}
    {clauses rest : List Node} {make : Expr → Body → Branch → α}
    (h : (do
      let (condition, statements) ← scene.condition clause
      let (body, count) ← scene.compile linked count (statements ++ rest)
      let (more, total) ← scene.compileClauses linked count clauses rest
      return (make condition body more, total)) = .error fault) :
    scene.condition clause = .error fault ∨
      ∃ condition statements, scene.condition clause = .ok (condition, statements) ∧
        (scene.compile linked count (statements ++ rest) = .error fault ∨
          ∃ body mid, scene.compile linked count (statements ++ rest) = .ok (body, mid) ∧
            scene.compileClauses linked mid clauses rest = .error fault) := by
  rcases bind_eq_error_iff.1 h with h | ⟨⟨condition, statements⟩, hcondition, h⟩
  · exact .inl h
  refine .inr ⟨condition, statements, hcondition, ?_⟩
  rcases bind_eq_error_iff.1 h with h | ⟨⟨body, mid⟩, hbody, h⟩
  · exact .inl h
  rcases bind_eq_error_iff.1 h with h | ⟨⟨more, total⟩, -, h⟩
  · exact .inr ⟨body, mid, hbody, h⟩
  · cases h

/-- **A fault is met here, or at the next spot.** -/
theorem blames_or_step {elements : List String} (hspot : spot.InLanguage elements)
    (hfails : spot.Fails scene fault) :
    Blames scene spot fault ∨ ∃ next, Step scene spot next ∧ next.Fails scene fault := by
  match spot with
  | .atStatements linked count [] =>
    rw [Spot.Fails, compile] at hfails
    cases hfails
  | .atStatements linked count (statement :: rest) =>
    rw [Spot.Fails] at hfails
    obtain ⟨hstatement, -⟩ := List.forall_mem_cons.1 hspot
    cases hkind : statement.kind with
    | construct =>
      rw [compile_construct hkind] at hfails
      rcases bind_eq_error_iff.1 hfails with hfails | ⟨arguments, harguments, hfails⟩
      · obtain ⟨expression, hmem, name, hname, rfl⟩ :=
          arguments_eq_error (hstatement.isExpression hkind) hfails
        exact .inl (.argument hkind hmem hname)
      · rcases bind_eq_error_iff.1 hfails with hfails | ⟨_, -, hfails⟩
        · exact .inr ⟨_, .construct hkind harguments, hfails⟩
        · cases hfails
    | reuse =>
      rw [compile_reuse hkind] at hfails
      split at hfails
      case h_1 hnone =>
        obtain rfl := Except.error.inj hfails
        exact .inl (.reuse hkind hnone)
      case h_2 element helement =>
        rcases bind_eq_error_iff.1 hfails with hfails | ⟨_, -, hfails⟩
        · exact .inr ⟨_, .reuse hkind helement, hfails⟩
        · cases hfails
    | switch =>
      rw [compile_switch hkind] at hfails
      rcases bind_eq_error_iff.1 hfails with hfails | ⟨clause, hclause, hfails⟩
      · exact .inl (.switch hkind hfails)
      · exact .inr ⟨_, .switch hkind hclause, hfails⟩
    | ifChain =>
      obtain ⟨hclauses, clause, clauses, hchildren, hclause⟩ := hstatement.areClauses hkind
      rw [compile_chain hkind hchildren hclause] at hfails
      rw [hchildren] at hclauses
      rcases clause_eq_error hfails with
        hfails | ⟨condition, statements, hcondition, hfails | ⟨body, mid, hbody, hfails⟩⟩
      · obtain ⟨expression, body, hexpression, name, hname, rfl⟩ :=
          condition_eq_error (hclauses.ifClause hclause).1 hfails
        exact .inl (.condition hkind hchildren hexpression hname)
      · exact .inr ⟨_, .chain hkind hchildren hclause hcondition, hfails⟩
      · exact .inr ⟨_, .behindFirst hkind hchildren hclause hcondition hbody, hfails⟩
    | _ => cases hstatement <;> cases hkind
  | .atClauses linked count [] rest =>
    rw [Spot.Fails, compileClauses] at hfails
    cases hfails
  | .atClauses linked count (clause :: clauses) rest =>
    rw [Spot.Fails] at hfails
    by_cases hclause : clause.kind = .ifClause
    · rw [compileClauses_elseIf hclause] at hfails
      rcases clause_eq_error hfails with
        hfails | ⟨condition, statements, hcondition, hfails | ⟨body, mid, hbody, hfails⟩⟩
      · obtain ⟨expression, body, hexpression, name, hname, rfl⟩ :=
          condition_eq_error (hspot.1.ifClause hclause).1 hfails
        exact .inl (.elseIf hclause hexpression hname)
      · exact .inr ⟨_, .elseIf hclause hcondition, hfails⟩
      · exact .inr ⟨_, .behindElseIf hclause hcondition hbody, hfails⟩
    · obtain ⟨⟨-⟩, rfl⟩ := hspot.1.elseClause hclause
      rw [compileClauses_otherwise rfl] at hfails
      rcases bind_eq_error_iff.1 hfails with hfails | ⟨_, -, hfails⟩
      · exact .inr ⟨_, .otherwise rfl, hfails⟩
      · cases hfails

/-- **A compilation that fails does so at a reached spot whose first statement is to blame.** -/
theorem exists_reaches_of_fails {elements : List String} (hspot : spot.InLanguage elements)
    (hfails : spot.Fails scene fault) :
    ∃ next, scene.Reaches spot next ∧ next.InLanguage elements ∧ Blames scene next fault := by
  induction hsize : spot.size using Nat.strong_induction_on generalizing spot with
  | _ size ih =>
    subst hsize
    rcases blames_or_step hspot hfails with hblames | ⟨next, hstep, hnext⟩
    · exact ⟨spot, .refl, hspot, hblames⟩
    · obtain ⟨last, hreaches, hlast⟩ := ih _ hstep.size_lt (hstep.inLanguage hspot) hnext rfl
      exact ⟨last, .head hstep hreaches, hlast⟩

end Scene

end Peephole

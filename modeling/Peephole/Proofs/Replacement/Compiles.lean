import Peephole.Proofs.C.MatcherText
import Peephole.Proofs.Grammar.TreeLanguage
import Peephole.Replacement

/-!
# Proofs/Replacement/Compiles — the code of statements, case by case

`Compiles` is the graph of `Scene.compile` where it succeeds: one constructor per kind of statement,
with the data that case has and no faults in sight (`compiles_of_compile`).  What holds of all code
is then an induction over `Compiles`, whose continuation is visible in the index: the statements
after a switch or a chain stand behind those of the case or clause.

The first such fact is that the code of a parsed rule can be read as C (`Compiles.readable`).
-/

namespace Peephole

namespace Scene

/-! ## Expressions -/

/-- The check passes if and only if each name in the expression is captured. -/
theorem checkCaptured_eq_ok_iff {scene : Scene} {expression : Node} :
    scene.checkCaptured expression = .ok () ↔
      ∀ name ∈ expression.references, scene.layout.isCaptured name = true := by
  unfold checkCaptured
  split
  case h_1 name hfind =>
    have hname := List.find?_some hfind
    have hmem := List.mem_of_find?_eq_some hfind
    simp only [Bool.not_eq_true'] at hname
    simp only [reduceCtorEq, false_iff]
    intro hall
    simp [hall name hmem] at hname
  case h_2 hfind =>
    simpa using hfind

/-- An argument that compiles refers to captured names only. -/
theorem argument_eq_ok_iff {scene : Scene} {expression : Node} {expr : Expr} :
    scene.argument expression = .ok expr ↔
      (∀ name ∈ expression.references, scene.layout.isCaptured name = true) ∧
        expression.toExpr = .ok expr := by
  rw [argument, bind_eq_ok_iff]
  constructor
  · rintro ⟨⟨⟩, hcaptured, hexpr⟩
    exact ⟨checkCaptured_eq_ok_iff.1 hcaptured, hexpr⟩
  · rintro ⟨hcaptured, hexpr⟩
    exact ⟨(), checkCaptured_eq_ok_iff.2 hcaptured, hexpr⟩

/-- The arguments compile if and only if each of them does. -/
theorem arguments_eq_ok_iff {scene : Scene} {expressions : List Node} {exprs : List Expr} :
    scene.arguments expressions = .ok exprs ↔
      List.Forall₂ (fun expression expr => scene.argument expression = .ok expr)
        expressions exprs := by
  induction expressions generalizing exprs with
  | nil =>
    rw [arguments, List.forall₂_nil_left_iff]
    exact ⟨fun h => (Except.ok.inj h).symm, fun h => h ▸ rfl⟩
  | cons expression expressions ih =>
    rw [arguments, bind_eq_ok_iff, List.forall₂_cons_left_iff]
    constructor
    · rintro ⟨expr, hexpr, hmore⟩
      obtain ⟨exprs', hexprs, heq⟩ := bind_eq_ok_iff.1 hmore
      obtain rfl := Except.ok.inj heq
      exact ⟨expr, exprs', hexpr, ih.1 hexprs, rfl⟩
    · rintro ⟨expr, exprs', hexpr, hexprs, rfl⟩
      exact ⟨expr, hexpr, bind_eq_ok_iff.2 ⟨exprs', ih.2 hexprs, rfl⟩⟩

/-- A condition compiles if the clause has an expression at its front and that compiles. -/
theorem condition_eq_ok_iff {scene : Scene} {clause : Node} {expr : Expr} {body : List Node} :
    scene.condition clause = .ok (expr, body) ↔
      ∃ expression, clause.children = expression :: body ∧ expression.isExpression = true ∧
        scene.argument expression = .ok expr := by
  unfold condition
  split
  case h_1 expression body' hchildren =>
    rw [hchildren]
    split
    case isTrue hkind =>
      rw [bind_eq_ok_iff]
      constructor
      · rintro ⟨expr', hexpr, heq⟩
        obtain ⟨rfl, rfl⟩ := Prod.mk.inj (Except.ok.inj heq)
        exact ⟨expression, rfl, hkind, hexpr⟩
      · rintro ⟨expression', heq, -, hexpr⟩
        obtain ⟨rfl, rfl⟩ := List.cons.inj heq
        exact ⟨expr, hexpr, rfl⟩
    case isFalse hkind =>
      simp only [reduceCtorEq, false_iff]
      rintro ⟨expression', heq, hkind', -⟩
      obtain ⟨rfl, rfl⟩ := List.cons.inj heq
      exact hkind hkind'
  case h_2 hchildren =>
    simp [hchildren]

/-! ## Statements -/

mutual

/-- The code of statements, after `count` nodes of which the linked ones lead here, and the number
of nodes declared by its end. -/
inductive Compiles (scene : Scene) : Option Linked → Nat → List Node → Body → Nat → Prop where
  | done (linked : Option Linked) (count : Nat) :
    Compiles scene linked count [] (scene.splice linked) count
  | construct {linked : Option Linked} {count total : Nat} {statement : Node} {rest : List Node}
    {arguments : List Expr} {body : Body} (hkind : statement.kind = .construct)
    (harguments : scene.arguments statement.children = .ok arguments)
    (hrest : Compiles scene (some (extend linked (count + 1))) (count + 1) rest body total) :
    Compiles scene linked count (statement :: rest)
      (build linked (count + 1) (.make statement.text arguments) body) total
  | reuse {linked : Option Linked} {count total : Nat} {statement : Node} {rest : List Node}
    {element : Element} {body : Body} (hkind : statement.kind = .reuse)
    (helement : scene.layout.named? statement.text = some element)
    (hrest : Compiles scene (some (extend linked (count + 1))) (count + 1) rest body total) :
    Compiles scene linked count (statement :: rest)
      (build linked (count + 1) (.copy element.cursor) body) total
  | switch {linked : Option Linked} {count total : Nat} {statement clause : Node}
    {rest : List Node} {body : Body} (hkind : statement.kind = .switch)
    (hclause : scene.chosenCase statement = .ok clause)
    (hrest : Compiles scene linked count (clause.children ++ rest) body total) :
    Compiles scene linked count (statement :: rest) body total
  | ifChain {linked : Option Linked} {count mid total : Nat} {statement clause : Node}
    {clauses statements rest : List Node} {condition : Expr} {body : Body} {more : Branch}
    (hkind : statement.kind = .ifChain) (hchildren : statement.children = clause :: clauses)
    (hclause : clause.kind = .ifClause)
    (hcondition : scene.condition clause = .ok (condition, statements))
    (hbody : Compiles scene linked count (statements ++ rest) body mid)
    (hmore : CompilesClauses scene linked mid clauses rest more total) :
    Compiles scene linked count (statement :: rest) (.branch condition body more) total

/-- The code of the clauses after the first, each of which goes on with `rest`. -/
inductive CompilesClauses (scene : Scene) :
    Option Linked → Nat → List Node → List Node → Branch → Nat → Prop where
  | giveUp (linked : Option Linked) (count : Nat) (rest : List Node) :
    CompilesClauses scene linked count [] rest (.otherwise .giveUp) count
  | elseIf {linked : Option Linked} {count mid total : Nat} {clause : Node}
    {clauses statements rest : List Node} {condition : Expr} {body : Body} {more : Branch}
    (hclause : clause.kind = .ifClause)
    (hcondition : scene.condition clause = .ok (condition, statements))
    (hbody : Compiles scene linked count (statements ++ rest) body mid)
    (hmore : CompilesClauses scene linked mid clauses rest more total) :
    CompilesClauses scene linked count (clause :: clauses) rest (.elseIf condition body more) total
  | otherwise {linked : Option Linked} {count total : Nat} {clause : Node} {rest : List Node}
    {body : Body} (hclause : clause.kind = .elseClause)
    (hbody : Compiles scene linked count (clause.children ++ rest) body total) :
    CompilesClauses scene linked count [clause] rest (.otherwise body) total

end

mutual

/-- **Code that `compile` yields is built case by case.** -/
theorem compiles_of_compile {scene : Scene} {linked : Option Linked} {count total : Nat}
    {body : Body} : ∀ {statements : List Node},
    scene.compile linked count statements = .ok (body, total) →
      Compiles scene linked count statements body total
  | [], h => by
    rw [compile] at h
    obtain ⟨rfl, rfl⟩ := Prod.mk.inj (Except.ok.inj h)
    exact .done linked count
  | statement :: rest, h => by
    rw [compile] at h
    split at h
    case h_1 hkind =>
      obtain ⟨arguments, harguments, h⟩ := bind_eq_ok_iff.1 h
      obtain ⟨⟨more, total'⟩, hmore, h⟩ := bind_eq_ok_iff.1 h
      obtain ⟨rfl, rfl⟩ := Prod.mk.inj (Except.ok.inj h)
      have := statement.size_pos
      exact .construct hkind harguments (compiles_of_compile hmore)
    case h_2 hkind =>
      split at h
      case h_1 => simp at h
      case h_2 element helement =>
        obtain ⟨⟨more, total'⟩, hmore, h⟩ := bind_eq_ok_iff.1 h
        obtain ⟨rfl, rfl⟩ := Prod.mk.inj (Except.ok.inj h)
        have := statement.size_pos
        exact .reuse hkind helement (compiles_of_compile hmore)
    case h_3 hkind =>
      split at h
      case h_1 => simp at h
      case h_2 clause hclause =>
        have := chosenCase_size hclause
        exact .switch hkind hclause (compiles_of_compile h)
    case h_4 hkind =>
      split at h
      case h_1 clause clauses hchildren =>
        split at h
        case isTrue => simp at h
        case isFalse hclause =>
          split at h
          case h_1 => simp at h
          case h_2 condition statements hcondition =>
            obtain ⟨⟨body, mid⟩, hbody, h⟩ := bind_eq_ok_iff.1 h
            obtain ⟨⟨more, total'⟩, hmore, h⟩ := bind_eq_ok_iff.1 h
            obtain ⟨rfl, rfl⟩ := Prod.mk.inj (Except.ok.inj h)
            have hstatements := condition_size hcondition
            have hsize : statement.size = 1 + (clause.size + Node.sizeAll clauses) := by
              rw [statement.size_eq, hchildren, Node.sizeAll_cons]
            have hpos := clause.size_pos
            exact .ifChain hkind hchildren (not_not.1 hclause) hcondition
              (compiles_of_compile hbody) (compilesClauses_of_compileClauses hmore)
      case h_2 => simp at h
    case h_5 => simp at h
termination_by statements => Node.sizeAll statements
decreasing_by all_goals simp only [Node.sizeAll_cons, Node.sizeAll_append]; omega

/-- What the compiler makes of clauses is what they compile to. -/
theorem compilesClauses_of_compileClauses {scene : Scene} {linked : Option Linked}
    {count total : Nat} {rest : List Node} {more : Branch} : ∀ {clauses : List Node},
    scene.compileClauses linked count clauses rest = .ok (more, total) →
      CompilesClauses scene linked count clauses rest more total
  | [], h => by
    rw [compileClauses] at h
    obtain ⟨rfl, rfl⟩ := Prod.mk.inj (Except.ok.inj h)
    exact .giveUp linked count rest
  | clause :: clauses, h => by
    rw [compileClauses] at h
    split at h
    case h_1 hclause =>
      split at h
      case h_1 => simp at h
      case h_2 condition statements hcondition =>
        obtain ⟨⟨body, mid⟩, hbody, h⟩ := bind_eq_ok_iff.1 h
        obtain ⟨⟨more, total'⟩, hmore, h⟩ := bind_eq_ok_iff.1 h
        obtain ⟨rfl, rfl⟩ := Prod.mk.inj (Except.ok.inj h)
        have hstatements := condition_size hcondition
        have hpos := clause.size_pos
        exact .elseIf hclause hcondition (compiles_of_compile hbody)
          (compilesClauses_of_compileClauses hmore)
    case h_2 hclause =>
      obtain ⟨⟨body, total'⟩, hbody, h⟩ := bind_eq_ok_iff.1 h
      cases clauses with
      | nil =>
        obtain ⟨rfl, rfl⟩ := Prod.mk.inj (Except.ok.inj h)
        have hsize := clause.size_eq
        exact .otherwise hclause (compiles_of_compile hbody)
      | cons other _ => simp at h
    case h_3 => simp at h
termination_by clauses => Node.sizeAll clauses + Node.sizeAll rest
decreasing_by all_goals simp only [Node.sizeAll_cons, Node.sizeAll_append]; omega

end

/-- The code of a replacement starts without nodes. -/
theorem exists_compiles {scene : Scene} {replacement : Node} {body : Body}
    (h : scene.replacement replacement = .ok body) :
    ∃ total, Compiles scene none 0 replacement.children body total := by
  unfold Scene.replacement at h
  split at h
  case isFalse => simp at h
  case isTrue =>
    obtain ⟨⟨compiled, total⟩, hcompile, heq⟩ := bind_eq_ok_iff.1 h
    obtain rfl := Except.ok.inj heq
    exact ⟨total, compiles_of_compile hcompile⟩

end Scene

/-! ## Reading the code as C -/

/-- A list of trees has the expressions that its trees have. -/
theorem Node.toExprs_eq_ok_iff {nodes : List Node} {exprs : List Expr} :
    Node.toExprs nodes = .ok exprs ↔
      List.Forall₂ (fun node expr => node.toExpr = .ok expr) nodes exprs := by
  induction nodes generalizing exprs with
  | nil =>
    rw [Node.toExprs, List.forall₂_nil_left_iff]
    exact ⟨fun h => (Except.ok.inj h).symm, fun h => h ▸ rfl⟩
  | cons node nodes ih =>
    rw [Node.toExprs, bind_eq_ok_iff, List.forall₂_cons_left_iff]
    constructor
    · rintro ⟨expr, hexpr, hmore⟩
      obtain ⟨exprs', hexprs, heq⟩ := bind_eq_ok_iff.1 hmore
      obtain rfl := Except.ok.inj heq
      exact ⟨expr, exprs', hexpr, ih.1 hexprs, rfl⟩
    · rintro ⟨expr, exprs', hexpr, hexprs, rfl⟩
      exact ⟨expr, hexpr, bind_eq_ok_iff.2 ⟨exprs', ih.2 hexprs, rfl⟩⟩

/-- An operator joins at least two operands. -/
theorem Node.toExpr_of_operator? {kind : Kind} {op : Operator} (hop : kind.operator? = some op)
    (text : String) (operands : List Node) :
    (Node.mk kind text operands).toExpr
      = if operands.length < 2 then .error (.malformed kind .tooFewOperands)
        else do return .chain op (← Node.toExprs operands) := by
  cases kind <;> simp only [Kind.operator?, reduceCtorEq, Option.some.injEq] at hop <;>
    subst hop <;> simp [Node.toExpr, Kind.operator?]

/-- An operator with operands enough stands for a chain of what the operands stand for. -/
theorem Node.toExpr_operation {kind : Kind} {op : Operator} {text : String} {operands : List Node}
    {expr : Expr} (hop : kind.operator? = some op) (two : 2 ≤ operands.length) :
    (Node.mk kind text operands).toExpr = .ok expr ↔
      ∃ exprs, Node.toExprs operands = .ok exprs ∧ expr = .chain op exprs := by
  rw [Node.toExpr_of_operator? hop, if_neg (Nat.not_lt.2 two), bind_eq_ok_iff]
  constructor
  · rintro ⟨exprs, hexprs, heq⟩
    exact ⟨exprs, hexprs, (Except.ok.inj heq).symm⟩
  · rintro ⟨exprs, hexprs, rfl⟩
    exact ⟨exprs, hexprs, rfl⟩

/-- Expressions made from trees read back if each of them does. -/
theorem Expr.readableAll_of_forall₂ {nodes : List Node} {exprs : List Expr}
    (h : List.Forall₂ (fun node expr => node.toExpr = .ok expr) nodes exprs)
    (hnodes : ∀ node ∈ nodes, ∀ {expr : Expr}, node.toExpr = .ok expr → expr.Readable) :
    Expr.ReadableAll exprs := by
  induction h with
  | nil => trivial
  | cons hexpr _ ih =>
    obtain ⟨hnode, hmore⟩ := List.forall_mem_cons.1 hnodes
    exact ⟨hnode hexpr, ih hmore⟩

/-- **Expressions of the grammar read back** when they are printed. -/
theorem IsExpression.readable {node : Node} (h : IsExpression node) :
    ∀ {expr : Expr}, node.toExpr = .ok expr → expr.Readable := by
  induction h with
  | integer h =>
    intro expr hexpr
    obtain rfl := Except.ok.inj hexpr
    exact h
  | reference h =>
    intro expr hexpr
    obtain rfl := Except.ok.inj hexpr
    exact h.chars
  | @operation kind op operands hop two _ _ ih =>
    intro expr hexpr
    obtain ⟨exprs, hexprs, rfl⟩ := (Node.toExpr_operation hop two).1 hexpr
    have hall := Node.toExprs_eq_ok_iff.1 hexprs
    refine ⟨?_, Expr.readableAll_of_forall₂ hall ih⟩
    rintro rfl
    have hlength := hall.length_eq
    rw [List.length_nil] at hlength
    omega

namespace Scene

/-- Arguments of the grammar read back when they are printed. -/
theorem readableAll_of_arguments {scene : Scene} {nodes : List Node} {exprs : List Expr}
    (h : scene.arguments nodes = .ok exprs) (hnodes : ∀ node ∈ nodes, IsExpression node) :
    Expr.ReadableAll exprs :=
  Expr.readableAll_of_forall₂
    ((arguments_eq_ok_iff.1 h).imp fun _ _ hexpr => (argument_eq_ok_iff.1 hexpr).2)
    fun node hnode _ hexpr => (hnodes node hnode).readable hexpr

/-- Making a node reads back, as do the statements behind it. -/
theorem readable_build {linked : Option Linked} {node : Nat} {value : Value} {body : Body}
    (hvalue : value.Readable) (hbody : body.Readable) :
    (build linked node value body).Readable := by
  cases linked with
  | none => exact ⟨hvalue, hbody⟩
  | some _ => exact ⟨hvalue, hbody⟩

/-- The condition of an if clause reads back, and its body consists of statements. -/
theorem readable_condition {scene : Scene} {elements : List String} {clause : Node} {expr : Expr}
    {body : List Node} (h : scene.condition clause = .ok (expr, body))
    (hclause : IsIfClause elements clause) :
    expr.Readable ∧ ∀ statement ∈ body, IsStatement elements statement := by
  obtain ⟨expression, hchildren, -, hexpr⟩ := condition_eq_ok_iff.1 h
  obtain ⟨hcondition, hbody⟩ := hclause
  obtain ⟨rfl, rfl⟩ := List.cons.inj hchildren
  exact ⟨hcondition.readable (argument_eq_ok_iff.1 hexpr).2, hbody⟩

/-- The clauses of a chain are told apart by their kinds. -/
theorem isIfClause_of_kind {elements : List String} {clause : Node}
    (h : IsIfClause elements clause ∨ IsElseClause elements clause)
    (hkind : clause.kind = .ifClause) : IsIfClause elements clause := by
  rcases h with h | h
  · exact h
  · obtain ⟨_⟩ := h
    simp at hkind

theorem isElseClause_of_kind {elements : List String} {clause : Node}
    (h : IsIfClause elements clause ∨ IsElseClause elements clause)
    (hkind : clause.kind = .elseClause) : IsElseClause elements clause := by
  rcases h with h | h
  · obtain ⟨_⟩ := h
    simp at hkind
  · exact h

/-- Linking to the rest and returning read back. -/
theorem readable_splice {scene : Scene}
    (hcursors : ∀ element ∈ scene.layout.elements, IsName element.cursor)
    (linked : Option Linked) : (scene.splice linked).Readable := by
  cases linked with
  | none => trivial
  | some _ => exact ⟨hcursors _ (List.getLast_mem scene.layout.nonempty), trivial⟩

mutual

/-- **The code of statements that were read from a text can be read as C.** -/
theorem Compiles.readable {scene : Scene} {elements : List String}
    (hcursors : ∀ element ∈ scene.layout.elements, IsName element.cursor) :
    ∀ {linked : Option Linked} {count total : Nat} {statements : List Node} {body : Body},
    Compiles scene linked count statements body total →
    (∀ statement ∈ statements, IsStatement elements statement) → body.Readable
  | _, _, _, _, _, .done linked count, _ => readable_splice hcursors linked
  | _, _, _, _, _, .construct hkind harguments hrest, h => by
    obtain ⟨hstatement, hmore⟩ := List.forall_mem_cons.1 h
    refine readable_build ?_ (hrest.readable hcursors hmore)
    cases hstatement with
    | construct hname hall _ => exact ⟨hname.chars, readableAll_of_arguments harguments hall⟩
    | _ => simp at hkind
  | _, _, _, _, _, .reuse hkind helement hrest, h => by
    obtain ⟨hstatement, hmore⟩ := List.forall_mem_cons.1 h
    refine readable_build ?_ (hrest.readable hcursors hmore)
    exact hcursors _ (List.mem_of_find?_eq_some helement)
  | _, _, _, _, _, .switch hkind hclause hrest, h => by
    obtain ⟨hstatement, hmore⟩ := List.forall_mem_cons.1 h
    obtain ⟨discriminant, clauses, hchildren, hmem⟩ := chosenCase_mem hclause
    refine hrest.readable hcursors (List.forall_mem_append.2 ⟨?_, hmore⟩)
    cases hstatement with
    | switch _ hall =>
      obtain ⟨rfl, rfl⟩ := List.cons.inj hchildren
      obtain ⟨_, hbody⟩ := hall _ hmem
      exact hbody
    | _ => simp at hkind
  | _, _, _, _, _, .ifChain hkind hchildren hclause hcondition hbody hrest, h => by
    obtain ⟨hstatement, hmore⟩ := List.forall_mem_cons.1 h
    cases hstatement with
    | @ifChain clauses last _ hall hlast =>
      have hclauses : ∀ clause ∈ clauses ++ last.toList,
          IsIfClause elements clause ∨ IsElseClause elements clause :=
        List.forall_mem_append.2 ⟨fun c hc => .inl (hall c hc),
          fun c hc => .inr (hlast c (Option.mem_toList.1 hc))⟩
      rw [show clauses ++ last.toList = _ from hchildren, List.forall_mem_cons] at hclauses
      obtain ⟨hexpr, hstatements⟩ := readable_condition hcondition
        (isIfClause_of_kind hclauses.1 hclause)
      exact ⟨hexpr, hbody.readable hcursors (List.forall_mem_append.2 ⟨hstatements, hmore⟩),
        hrest.readable hcursors hclauses.2 hmore⟩
    | _ => simp at hkind

/-- What clauses compile to reads back. -/
theorem CompilesClauses.readable {scene : Scene} {elements : List String}
    (hcursors : ∀ element ∈ scene.layout.elements, IsName element.cursor) :
    ∀ {linked : Option Linked} {count total : Nat} {clauses rest : List Node} {more : Branch},
    CompilesClauses scene linked count clauses rest more total →
    (∀ clause ∈ clauses, IsIfClause elements clause ∨ IsElseClause elements clause) →
    (∀ statement ∈ rest, IsStatement elements statement) → more.Readable
  | _, _, _, _, _, _, .giveUp linked count rest, _, _ => trivial
  | _, _, _, _, _, _, .elseIf hclause hcondition hbody hmore, hclauses, hrest => by
    obtain ⟨hfirst, hclauses⟩ := List.forall_mem_cons.1 hclauses
    obtain ⟨hexpr, hstatements⟩ := readable_condition hcondition (isIfClause_of_kind hfirst hclause)
    exact ⟨hexpr, hbody.readable hcursors (List.forall_mem_append.2 ⟨hstatements, hrest⟩),
      hmore.readable hcursors hclauses hrest⟩
  | _, _, _, _, _, _, .otherwise hclause hbody, hclauses, hrest => by
    refine hbody.readable hcursors (List.forall_mem_append.2 ⟨?_, hrest⟩)
    obtain ⟨hstatements⟩ := isElseClause_of_kind (hclauses _ (List.mem_singleton_self _)) hclause
    exact hstatements

end

end Scene

end Peephole

import Peephole.Proofs.Replacement.Compiles

/-!
# Proofs/Replacement/Mentions — what an expression is made of, and which arguments it mentions

Two walks go over an expression.  The one that makes C of it (`toExpr`) goes through operators only
and wants two operands for each: it succeeds exactly if every node it reaches is an operand, and
otherwise the first that is none is at fault (`toExpr_cases`).  The one that checks for captures
(`references`) looks at every node, also below literals and references, where nothing is ever
written.  So the arguments that the C text mentions are among those checked, in the same order
(`mentions_references`).
-/

namespace Peephole

namespace Node

/-! ## The nodes of an expression -/

mutual

/-- The nodes of an expression, each before its operands.  Nothing below a node that is no operator
belongs to the expression. -/
def reached : Node → List Node
  | mk kind text children =>
    mk kind text children :: if kind.operator?.isSome then reachedAll children else []

/-- The nodes of several expressions. -/
def reachedAll : List Node → List Node
  | [] => []
  | node :: nodes => reached node ++ reachedAll nodes

end

/-- A node that can stand in an expression: a literal, a reference, or an operator with two operands
or more. -/
def IsOperand (node : Node) : Prop :=
  node.kind = .integer ∨ node.kind = .reference ∨
    node.kind.operator?.isSome = true ∧ 2 ≤ node.children.length

instance : DecidablePred IsOperand := fun _ => inferInstanceAs (Decidable (_ ∨ _ ∨ _ ∧ _))

/-- The fault of a node that cannot. -/
def operandFault (node : Node) : Fault :=
  .malformed node.kind
    (if node.kind.operator?.isSome then .tooFewOperands else .notAnExpression)

/-- The first node that is no operand. -/
def misfit? (nodes : List Node) : Option Node := nodes.find? fun node => ¬ node.IsOperand

theorem misfit?_append (first second : List Node) :
    misfit? (first ++ second) = (misfit? first).or (misfit? second) := List.find?_append

theorem misfit?_cons_of_isOperand {node : Node} (h : node.IsOperand) (nodes : List Node) :
    misfit? (node :: nodes) = misfit? nodes := List.find?_cons_of_neg (by simpa using h)

theorem misfit?_cons_of_not {node : Node} (h : ¬ node.IsOperand) (nodes : List Node) :
    misfit? (node :: nodes) = some node := List.find?_cons_of_pos (by simpa using h)

theorem misfit?_eq_none_iff {nodes : List Node} :
    misfit? nodes = none ↔ ∀ node ∈ nodes, node.IsOperand := by
  simp [misfit?]

/-- A node without an operator is an expression by itself or none. -/
theorem reached_of_operator?_none {kind : Kind} (h : kind.operator? = none) (text : String)
    (children : List Node) : (mk kind text children).reached = [mk kind text children] := by
  rw [reached, h]
  rfl

theorem reached_of_operator? {kind : Kind} {op : Operator} (h : kind.operator? = some op)
    (text : String) (children : List Node) :
    (mk kind text children).reached = mk kind text children :: reachedAll children := by
  rw [reached, h]
  rfl

theorem isOperand_of_operator? {kind : Kind} {op : Operator} (h : kind.operator? = some op)
    {text : String} {children : List Node} :
    (mk kind text children).IsOperand ↔ 2 ≤ children.length := by
  cases kind <;> simp_all [IsOperand, Kind.operator?]

/-- Without an operator, only a literal and a variable have an expression. -/
theorem toExpr_leaf_iff {kind : Kind} (hop : kind.operator? = none) {text : String}
    {children : List Node} {expr : Expr} :
    (mk kind text children).toExpr = .ok expr ↔
      kind = .integer ∧ expr = .literal text ∨ kind = .reference ∧ expr = .argument text := by
  cases kind <;> simp_all [Kind.operator?, toExpr, eq_comm]

theorem toExpr_of_not_isOperand {kind : Kind} (hop : kind.operator? = none) {text : String}
    {children : List Node} (h : ¬ (mk kind text children).IsOperand) :
    (mk kind text children).toExpr = .error (.malformed kind .notAnExpression) := by
  cases kind <;> simp_all [IsOperand, Kind.operator?, toExpr]

mutual

/-- **A tree is an expression exactly if every node reached is an operand**, and otherwise the
first that is none is at fault. -/
theorem toExpr_cases : ∀ node : Node,
    (∃ expr, node.toExpr = .ok expr ∧ misfit? node.reached = none) ∨
      ∃ misfit, misfit? node.reached = some misfit ∧ node.toExpr = .error misfit.operandFault
  | mk kind text children => by
    cases hop : kind.operator? with
    | none =>
      rw [reached_of_operator?_none hop]
      by_cases hoperand : (mk kind text children).IsOperand
      · have hnone := misfit?_cons_of_isOperand hoperand []
        rcases hoperand with hkind | hkind | ⟨hsome, -⟩
        · exact .inl ⟨_, (toExpr_leaf_iff hop).2 (.inl ⟨hkind, rfl⟩), hnone⟩
        · exact .inl ⟨_, (toExpr_leaf_iff hop).2 (.inr ⟨hkind, rfl⟩), hnone⟩
        · simp [hop] at hsome
      · refine .inr ⟨_, misfit?_cons_of_not hoperand [], ?_⟩
        rw [operandFault, kind_mk, hop]
        exact toExpr_of_not_isOperand hop hoperand
    | some op =>
      rw [reached_of_operator? hop, toExpr_of_operator? hop]
      by_cases hfew : children.length < 2
      · have hnot : ¬ (mk kind text children).IsOperand := by
          rw [isOperand_of_operator? hop]
          omega
        refine .inr ⟨_, misfit?_cons_of_not hnot _, ?_⟩
        rw [if_pos hfew, operandFault, kind_mk, hop]
        rfl
      · have hoperand : (mk kind text children).IsOperand := by
          rw [isOperand_of_operator? hop]
          omega
        rw [if_neg hfew, misfit?_cons_of_isOperand hoperand]
        obtain ⟨exprs, hexprs, hnone⟩ | ⟨misfit, hmisfit, herror⟩ := toExprs_cases children
        · exact .inl ⟨.chain op exprs, by rw [hexprs]; rfl, hnone⟩
        · exact .inr ⟨misfit, hmisfit, by rw [herror]; rfl⟩

/-- Trees have expressions, or the first misfit among what they reach is the fault. -/
theorem toExprs_cases : ∀ nodes : List Node,
    (∃ exprs, toExprs nodes = .ok exprs ∧ misfit? (reachedAll nodes) = none) ∨
      ∃ misfit, misfit? (reachedAll nodes) = some misfit ∧
        toExprs nodes = .error misfit.operandFault
  | [] => .inl ⟨[], rfl, rfl⟩
  | node :: nodes => by
    rw [reachedAll, misfit?_append, toExprs]
    obtain ⟨expr, hexpr, hnone⟩ | ⟨misfit, hmisfit, herror⟩ := toExpr_cases node
    · rw [hexpr, hnone, Option.none_or]
      obtain ⟨exprs, hexprs, hnone'⟩ | ⟨misfit, hmisfit, herror⟩ := toExprs_cases nodes
      · exact .inl ⟨expr :: exprs, by rw [hexprs]; rfl, hnone'⟩
      · exact .inr ⟨misfit, hmisfit, by rw [herror]; rfl⟩
    · exact .inr ⟨misfit, by rw [hmisfit]; rfl, by rw [herror]; rfl⟩

end

end Node

namespace Expr

/-! ## The text of an expression, part by part -/

/-- A part of the C text of an expression. -/
inductive Part where
  /-- Written as it stands. -/
  | verbatim (text : String)
  /-- The local of a captured argument. -/
  | argument (name : String)

/-- The C text of a part. -/
def Part.text : Part → String
  | verbatim text => text
  | argument name => argumentLocal name

/-- The argument that a part mentions. -/
def Part.argument? : Part → Option String
  | verbatim _ => none
  | argument name => some name

mutual

/-- The parts of the C text of an expression. -/
def parts : Expr → List Part
  | literal text => [.verbatim text]
  | argument name => [.argument name]
  | chain op operands =>
    .verbatim "(" :: (partsBetween (" " ++ op.token ++ " ") operands ++ [.verbatim ")"])

/-- The parts of expressions with a text between them. -/
def partsBetween (separator : String) : List Expr → List Part
  | [] => []
  | [expr] => parts expr
  | expr :: next :: exprs =>
    parts expr ++ .verbatim separator :: partsBetween separator (next :: exprs)

end

/-- The arguments that an expression mentions, in the order of its text. -/
def mentions (expr : Expr) : List String := expr.parts.filterMap Part.argument?

mutual

/-- **The parts make up the text.** -/
theorem toList_text : ∀ expr : Expr, expr.text.toList = expr.parts.flatMap (·.text.toList)
  | literal spelled => by simp [Expr.text, parts, Part.text]
  | argument name => by simp [Expr.text, parts, Part.text]
  | chain op operands => by simp [Expr.text, parts, Part.text, toList_intercalate_texts operands]

/-- The text of a list is that of its parts, with separators between them. -/
theorem toList_intercalate_texts {separator : String} : ∀ exprs : List Expr,
    (separator.intercalate (texts exprs)).toList
      = (partsBetween separator exprs).flatMap (·.text.toList)
  | [] => by simp [texts, partsBetween]
  | [expr] => by simp [texts, partsBetween, toList_text expr]
  | expr :: next :: exprs => by
    have hmore := @toList_intercalate_texts separator (next :: exprs)
    rw [texts] at hmore
    rw [texts, texts, String.intercalate_cons_cons, String.toList_append, String.toList_append,
      hmore, toList_text expr, partsBetween]
    simp [Part.text]

end

/-- Separators mention nothing. -/
theorem filterMap_partsBetween (separator : String) : ∀ exprs : List Expr,
    (partsBetween separator exprs).filterMap Part.argument? = exprs.flatMap mentions
  | [] => rfl
  | [expr] => by simp [partsBetween, mentions]
  | expr :: next :: exprs => by
    rw [partsBetween, List.filterMap_append, List.filterMap_cons,
      filterMap_partsBetween separator (next :: exprs)]
    rfl

/-- A chain mentions what its operands mention. -/
theorem mentions_chain (op : Operator) (operands : List Expr) :
    (chain op operands).mentions = operands.flatMap mentions := by
  rw [mentions, parts, List.filterMap_cons, List.filterMap_append, filterMap_partsBetween]
  simp [Part.argument?]

end Expr

namespace Node

/-! ## Mentions and references -/

/-- No literal and no reference has children. -/
def LeavesBare (nodes : List Node) : Prop :=
  ∀ node ∈ nodes, node.kind = .integer ∨ node.kind = .reference → node.children = []

mutual

/-- **What is mentioned is referred to, in the same order.** -/
theorem mentions_references : ∀ (node : Node) {expr : Expr}, node.toExpr = .ok expr →
    expr.mentions.Sublist node.references ∧
      (LeavesBare node.reached → expr.mentions = node.references)
  | mk kind text children, expr, hexpr => by
    cases hop : kind.operator? with
    | none =>
      rw [reached_of_operator?_none hop]
      -- Below a leaf nothing is written, whatever the check finds there.
      obtain ⟨rfl, rfl⟩ | ⟨rfl, rfl⟩ := (toExpr_leaf_iff hop).1 hexpr
      · refine ⟨List.nil_sublist _, fun hbare => ?_⟩
        obtain rfl : children = [] := hbare _ List.mem_cons_self (.inl rfl)
        rfl
      · refine ⟨List.sublist_append_left [text] _, fun hbare => ?_⟩
        obtain rfl : children = [] := hbare _ List.mem_cons_self (.inr rfl)
        rfl
    | some op =>
      have hkind : kind ≠ .reference := by
        rintro rfl
        cases hop
      rw [toExpr_of_operator? hop] at hexpr
      split at hexpr
      case isTrue => cases hexpr
      case isFalse =>
        obtain ⟨exprs, hexprs, heq⟩ := bind_eq_ok_iff.1 hexpr
        obtain rfl := Except.ok.inj heq
        obtain ⟨hsub, hsame⟩ := mentions_referencesAll children hexprs
        rw [Expr.mentions_chain, references, if_neg hkind, List.nil_append,
          reached_of_operator? hop]
        exact ⟨hsub, fun hbare => hsame fun node hnode => hbare node (List.mem_cons_of_mem _ hnode)⟩

/-- **The names in some expressions** are references of their trees, and all of them where no leaf
has anything below it. -/
theorem mentions_referencesAll : ∀ (nodes : List Node) {exprs : List Expr},
    toExprs nodes = .ok exprs →
    (exprs.flatMap Expr.mentions).Sublist (referencesAll nodes) ∧
      (LeavesBare (reachedAll nodes) → exprs.flatMap Expr.mentions = referencesAll nodes)
  | [], exprs, hexprs => by
    obtain rfl := Except.ok.inj hexprs
    exact ⟨.slnil, fun _ => rfl⟩
  | node :: nodes, exprs, hexprs => by
    rw [toExprs] at hexprs
    obtain ⟨expr, hexpr, hmore⟩ := bind_eq_ok_iff.1 hexprs
    obtain ⟨more, hrest, heq⟩ := bind_eq_ok_iff.1 hmore
    obtain rfl := Except.ok.inj heq
    obtain ⟨hsub, hsame⟩ := mentions_references node hexpr
    obtain ⟨hsub', hsame'⟩ := mentions_referencesAll nodes hrest
    rw [List.flatMap_cons, referencesAll, reachedAll]
    refine ⟨hsub.append hsub', fun hbare => ?_⟩
    rw [LeavesBare, List.forall_mem_append] at hbare
    rw [hsame hbare.1, hsame' hbare.2]

end

/-- **What stands for an expression, and what it mentions.**  A tree stands for an expression
exactly if every node reached through operators is a literal, a reference or an operator with two
operands or more; otherwise the first that is none of these is at fault.  The text of an expression
mentions arguments in the order in which the tree refers to them: some of those referred to, and all
if literals and references have no children.  So what is written of an expression that refers to
captured names only mentions none but these. -/
theorem expression_of_operands (node : Node) :
    ((∃ expr, node.toExpr = .ok expr) ↔ ∀ operand ∈ node.reached, operand.IsOperand) ∧
      (∀ fault, node.toExpr = .error fault ↔
        ∃ misfit, node.reached.find? (fun operand => ¬ operand.IsOperand) = some misfit ∧
          fault = misfit.operandFault) ∧
      (∀ expr, node.toExpr = .ok expr →
        expr.text.toList = expr.parts.flatMap (·.text.toList) ∧
          expr.mentions.Sublist node.references ∧
          (LeavesBare node.reached → expr.mentions = node.references)) ∧
      ∀ scene : Scene, scene.checkCaptured node = .ok () → ∀ expr, node.toExpr = .ok expr →
        ∀ name ∈ expr.mentions, scene.layout.isCaptured name = true := by
  refine ⟨?_, fun fault => ?_, fun expr hexpr => ?_, fun scene hchecked expr hexpr name hname => ?_⟩
  · rw [← misfit?_eq_none_iff]
    obtain ⟨expr, hexpr, hnone⟩ | ⟨misfit, hmisfit, herror⟩ := toExpr_cases node
    · exact iff_of_true ⟨expr, hexpr⟩ hnone
    · simp [hmisfit, herror]
  · change _ ↔ ∃ misfit, misfit? node.reached = some misfit ∧ fault = misfit.operandFault
    obtain ⟨expr, hexpr, hnone⟩ | ⟨misfit, hmisfit, herror⟩ := toExpr_cases node
    · simp [hexpr, hnone]
    · simp [hmisfit, herror, eq_comm]
  · exact ⟨expr.toList_text, mentions_references node hexpr⟩
  · have hreferred := (mentions_references node hexpr).1.subset hname
    exact Scene.checkCaptured_eq_ok_iff.1 hchecked name hreferred

end Node

end Peephole

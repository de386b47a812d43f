import Peephole.Proofs.Replacement.Congruence

/-!
# Proofs/Replacement/Specialization — a choice decides the switches

Under a choice of instructions a switch is its chosen case.  Two readings of that, for trees of any
shape: what stands in a case that is not chosen makes no difference (`Replaced`), and a replacement
side has the code of the one without switches, in which the statements of the chosen case stand in
place of each switch (`specialize`).

The first needs care where a switch stands among the arguments of an instruction or in a condition.
There it is no statement, and all it refers to must be captured before it is refused.
-/

namespace Peephole

theorem forall₂_middle {α : Type} {Related : α → α → Prop} {left right : List α} {a b : α}
    (hrefl : ∀ a, Related a a) (h : Related a b) :
    List.Forall₂ Related (left ++ a :: right) (left ++ b :: right) :=
  List.rel_append (List.forall₂_same.2 fun c _ => hrefl c)
    (.cons h (List.forall₂_same.2 fun c _ => hrefl c))

theorem rel_find? {α : Type} {Related : α → α → Prop} {keep : α → Bool} {first second : List α}
    (hkeep : ∀ a b, Related a b → keep a = keep b) (h : List.Forall₂ Related first second) :
    Option.Rel Related (first.find? keep) (second.find? keep) := by
  induction h with
  | nil => exact .none
  | @cons a b _ _ hab _ ih =>
    rw [List.find?_cons, List.find?_cons, ← hkeep a b hab]
    cases keep a with
    | true => exact .some hab
    | false => exact ih

namespace Node

theorem referencesAll_append (first second : List Node) :
    referencesAll (first ++ second) = referencesAll first ++ referencesAll second := by
  induction first with
  | nil => rfl
  | cons node first ih => rw [List.cons_append, referencesAll, referencesAll, ih, List.append_assoc]

theorem toExprs_eq_of_forall₂ {first second : List Node}
    (h : List.Forall₂ (fun a b => a.toExpr = b.toExpr) first second) :
    toExprs first = toExprs second := by
  induction h with
  | nil => rfl
  | cons hfirst _ ih => rw [toExprs, toExprs, hfirst, ih]

end Node

namespace Scene

variable {scene : Scene}

/-! ## The chosen case -/

/-- A switch comes down to the clause behind the clauses given: the one chosen, and the first of its
label. -/
def Chooses (scene : Scene) (switch : Node) (before : List Node) (clause : Node) : Prop :=
  scene.chosenCase switch = .ok clause ∧ ∀ earlier ∈ before, earlier.text ≠ clause.text

/-- Clauses with the same labels have the same one picked. -/
theorem rel_pickCase {Related : Node → Node → Prop}
    (htext : ∀ c d, Related c d → c.text = d.text) {clauses others : List Node}
    (h : List.Forall₂ Related clauses others) (instruction : String) :
    Option.Rel Related (pickCase clauses instruction) (pickCase others instruction) := by
  have hfind (label : String) : Option.Rel Related (clauses.find? (·.text == label))
      (others.find? (·.text == label)) :=
    rel_find? (fun _ _ hcd => by rw [htext _ _ hcd]) h
  unfold pickCase
  have hown := hfind instruction
  revert hown
  generalize clauses.find? (·.text == instruction) = own
  generalize others.find? (·.text == instruction) = other
  rintro (hcd | _)
  · exact .some hcd
  · exact hfind "default"

/-- Which case is chosen depends on the kinds and texts below a switch only. -/
theorem chosenCase_endsAlike {Related : Node → Node → Prop}
    (hkind : ∀ c d, Related c d → c.kind = d.kind)
    (htext : ∀ c d, Related c d → c.text = d.text) {switch other : Node}
    (h : List.Forall₂ Related switch.children other.children) :
    EndsAlike Related (scene.chosenCase switch) (scene.chosenCase other) := by
  unfold chosenCase
  generalize switch.children = children at h
  generalize other.children = children' at h
  cases h with
  | nil => exact .error _
  | @cons discriminant discriminant' clauses clauses' hfirst hclauses =>
    dsimp only
    rw [← hkind _ _ hfirst, ← htext _ _ hfirst]
    by_cases hreference : discriminant.kind ≠ .reference
    · rw [if_pos hreference, if_pos hreference]
      exact .error _
    rw [if_neg hreference, if_neg hreference]
    have hempty : clauses.isEmpty = clauses'.isEmpty := by cases hclauses <;> rfl
    rw [← hempty]
    cases clauses.isEmpty with
    | true => exact .error _
    | false =>
      have hcases : Option.Rel Related (clauses.find? (·.kind ≠ .caseClause))
          (clauses'.find? (·.kind ≠ .caseClause)) :=
        rel_find? (fun _ _ hcd => by rw [hkind _ _ hcd]) hclauses
      revert hcases
      generalize clauses.find? (·.kind ≠ .caseClause) = stray
      generalize clauses'.find? (·.kind ≠ .caseClause) = stray'
      rintro (hcd | _)
      · dsimp only
        rw [hkind _ _ hcd]
        exact .error _
      · refine .bind_same fun instruction _ => ?_
        have hpick := rel_pickCase htext hclauses instruction
        revert hpick
        generalize pickCase clauses instruction = clause
        generalize pickCase clauses' instruction = clause'
        rintro (hcd | _)
        · exact .ok hcd
        · exact .error _

/-- The clause that is picked is the first one of its label. -/
theorem find?_of_pickCase {clauses : List Node} {instruction : String} {clause : Node}
    (h : pickCase clauses instruction = some clause) :
    clauses.find? (·.text == clause.text) = some clause := by
  rcases Option.or_eq_some_iff.1 h with h | ⟨_, h⟩
  · have hlabel : clause.text = instruction := by simpa using List.find?_some h
    rwa [hlabel]
  · have hlabel : clause.text = "default" := by simpa using List.find?_some h
    rwa [hlabel]

/-- The chosen case is a case, and the first of its label. -/
theorem find?_of_chosenCase {switch clause : Node} (h : scene.chosenCase switch = .ok clause) :
    clause.kind = .caseClause ∧
      (switch.children.drop 1).find? (·.text == clause.text) = some clause := by
  unfold chosenCase at h
  split at h
  case h_2 => cases h
  case h_1 discriminant clauses hchildren =>
    rw [hchildren, List.drop_one, List.tail_cons]
    split at h
    case isTrue => cases h
    case isFalse =>
      split at h
      case isTrue => cases h
      case isFalse =>
        split at h
        case h_1 => cases h
        case h_2 hcases =>
          obtain ⟨instruction, -, h⟩ := bind_eq_ok_iff.1 h
          split at h
          case h_2 => cases h
          case h_1 hpick =>
            obtain rfl := Except.ok.inj h
            refine ⟨?_, find?_of_pickCase hpick⟩
            simpa using List.find?_eq_none.1 hcases _ (pickCase_mem hpick)

/-! ## Cases that are not chosen -/

/-- Where a node of the kind holds an expression behind the children given: in the arguments of an
instruction and in the condition of a clause. -/
def IsOperand (kind : Kind) (before : List Node) : Prop :=
  kind = .construct ∨ kind = .ifClause ∧ before = []

/-- All that the trees refer to is captured. -/
def Captured (scene : Scene) (nodes : List Node) : Prop :=
  ∀ name ∈ Node.referencesAll nodes, scene.layout.isCaptured name = true

/-- **The statements of one case that is not chosen give way to others**, at any depth.  Inside an
expression both may refer to captured arguments only. -/
inductive Replaced (scene : Scene) (old new : List Node) : Node → Node → Prop where
  | unchosen {text label : String} {left right : List Node}
    (h : ¬ scene.Chooses (.mk .switch text (left ++ .mk .caseClause label old :: right))
      (left.drop 1) (.mk .caseClause label old)) :
    Replaced scene old new (.mk .switch text (left ++ .mk .caseClause label old :: right))
      (.mk .switch text (left ++ .mk .caseClause label new :: right))
  | inside {kind : Kind} {text : String} {left right : List Node} {child other : Node}
    (h : Replaced scene old new child other)
    (hoperand : IsOperand kind left → scene.Captured old ∧ scene.Captured new) :
    Replaced scene old new (.mk kind text (left ++ child :: right))
      (.mk kind text (left ++ other :: right))

namespace Replaced

variable {old new : List Node} {s t : Node}

theorem kind_eq (h : Replaced scene old new s t) : s.kind = t.kind := by cases h <;> rfl

theorem text_eq (h : Replaced scene old new s t) : s.text = t.text := by cases h <;> rfl

/-- Exchanging the statements of a case changes no expression. -/
theorem toExpr_eq (h : Replaced scene old new s t) : s.toExpr = t.toExpr := by
  induction h with
  | unchosen => rfl
  | @inside kind text left right child other _ _ ih =>
    have hexprs : Node.toExprs (left ++ child :: right) = Node.toExprs (left ++ other :: right) :=
      Node.toExprs_eq_of_forall₂ (forall₂_middle (fun _ => rfl) ih)
    rw [Node.toExpr.eq_def, Node.toExpr.eq_def]
    dsimp only
    rw [hexprs, List.length_append, List.length_append, List.length_cons, List.length_cons]

/-- What is not captured is looked for in vain in both. -/
theorem find?_references (h : Replaced scene old new s t) (hold : scene.Captured old)
    (hnew : scene.Captured new) :
    s.references.find? (!scene.layout.isCaptured ·)
      = t.references.find? (!scene.layout.isCaptured ·) := by
  have hnone {nodes : List Node} (hnodes : scene.Captured nodes) :
      (Node.referencesAll nodes).find? (!scene.layout.isCaptured ·) = none :=
    List.find?_eq_none.2 fun name hname => by simp [hnodes name hname]
  induction h with
  | unchosen =>
    simp only [Node.references, Node.referencesAll_append, Node.referencesAll, List.find?_append,
      hnone hold, hnone hnew, reduceCtorEq, if_false, List.nil_append]
  | inside _ _ ih =>
    simp only [Node.references, Node.referencesAll_append, Node.referencesAll, List.find?_append,
      ih]

/-- An argument stays the same if the statements on both sides refer to captures only. -/
theorem argument_eq (h : Replaced scene old new s t) (hold : scene.Captured old)
    (hnew : scene.Captured new) : scene.argument s = scene.argument t := by
  rw [argument, argument, checkCaptured, checkCaptured, h.find?_references hold hnew, h.toExpr_eq]

end Replaced

/-- Two trees differ in the statements of one case that is not chosen, if at all. -/
def Alike (scene : Scene) (old new : List Node) (s t : Node) : Prop :=
  s = t ∨ Replaced scene old new s t

section Alike

variable {old new : List Node} {s t : Node}

theorem Alike.refl (s : Node) : Alike scene old new s s := .inl rfl

theorem Alike.kind_eq (h : Alike scene old new s t) : s.kind = t.kind :=
  h.elim (congrArg _) Replaced.kind_eq

theorem Alike.text_eq (h : Alike scene old new s t) : s.text = t.text :=
  h.elim (congrArg _) Replaced.text_eq

theorem forall₂_alike (nodes : List Node) : List.Forall₂ (Alike scene old new) nodes nodes :=
  List.forall₂_same.2 fun node _ => .refl node

/-- Statements that are alike have children that are alike, unless they are switches. -/
theorem Alike.children (h : Alike scene old new s t) (hkind : s.kind ≠ .switch) :
    List.Forall₂ (Alike scene old new) s.children t.children := by
  rcases h with rfl | h
  · exact forall₂_alike s.children
  · cases h with
    | unchosen => exact absurd rfl hkind
    | @inside _ _ left right _ _ h => exact forall₂_middle .refl (.inr h)

/-- Constructions that are alike have the same arguments. -/
theorem Alike.arguments (h : Alike scene old new s t) (hkind : s.kind = .construct) :
    scene.arguments s.children = scene.arguments t.children := by
  rcases h with rfl | h
  · rfl
  · cases h with
    | unchosen => cases hkind
    | @inside _ _ left right _ _ h hoperand =>
      obtain ⟨hold, hnew⟩ := hoperand (.inl hkind)
      exact arguments_eq_of_forall₂
        (forall₂_middle (fun _ => rfl) (h.argument_eq hold hnew))

/-- Clauses that are alike have the same condition, and bodies that are alike. -/
theorem Alike.condition (h : Alike scene old new s t) (hkind : s.kind = .ifClause) :
    EndsAlike (fun c d => c.1 = d.1 ∧ List.Forall₂ (Alike scene old new) c.2 d.2)
      (scene.condition s) (scene.condition t) := by
  rcases h with rfl | h
  · exact .refl (fun c => ⟨rfl, forall₂_alike c.2⟩) _
  cases h with
  | unchosen => cases hkind
  | @inside _ text left right child other h hoperand =>
    unfold Scene.condition
    cases left with
    | nil =>
      obtain ⟨hold, hnew⟩ := hoperand (.inr ⟨hkind, rfl⟩)
      dsimp only [Node.children_mk, List.nil_append]
      rw [Node.isExpression, Node.isExpression, h.kind_eq, h.argument_eq hold hnew]
      exact .refl (fun c => ⟨rfl, forall₂_alike c.2⟩) _
    | cons expression left =>
      dsimp only [Node.children_mk, List.cons_append]
      split
      case isTrue => exact .bind_same fun _ _ => .ok ⟨rfl, forall₂_middle .refl (.inr h)⟩
      case isFalse => exact .error _

/-- Two clauses at one place of a switch: the same, or the replaced one and what it gives way to. -/
def Swapped (label : String) (old new : List Node) (c d : Node) : Prop :=
  c = d ∨ c = .mk .caseClause label old ∧ d = .mk .caseClause label new

theorem Swapped.kind_eq {label : String} {c d : Node} (h : Swapped label old new c d) :
    c.kind = d.kind := by
  rcases h with rfl | ⟨rfl, rfl⟩ <;> rfl

theorem Swapped.text_eq {label : String} {c d : Node} (h : Swapped label old new c d) :
    c.text = d.text := by
  rcases h with rfl | ⟨rfl, rfl⟩ <;> rfl

/-- If a clause of its label stands before a place, the first of that label does too. -/
theorem find?_of_earlier {discriminant earlier clause other : Node} {left right : List Node}
    (h : ((discriminant :: left ++ other :: right).drop 1).find? (·.text == clause.text)
      = some clause)
    (hearlier : earlier ∈ left) (htext : earlier.text = clause.text) :
    left.find? (·.text == clause.text) = some clause := by
  rw [List.cons_append, List.drop_one, List.tail_cons, List.find?_append] at h
  rcases Option.or_eq_some_iff.1 h with h | ⟨hnone, -⟩
  · exact h
  · simpa [htext] using List.find?_eq_none.1 hnone earlier hearlier

/-- A clause that is not chosen may be exchanged: the one that is chosen stays. -/
theorem chosenCase_of_unchosen {text label : String} {left right : List Node}
    (h : ¬ scene.Chooses (.mk .switch text (left ++ .mk .caseClause label old :: right))
      (left.drop 1) (.mk .caseClause label old)) :
    EndsAlike (fun c d => List.Forall₂ (Alike scene old new) c.children d.children)
      (scene.chosenCase (.mk .switch text (left ++ .mk .caseClause label old :: right)))
      (scene.chosenCase (.mk .switch text (left ++ .mk .caseClause label new :: right))) := by
  have hswapped : List.Forall₂ (Swapped label old new)
      (left ++ .mk .caseClause label old :: right) (left ++ .mk .caseClause label new :: right) :=
    forall₂_middle (fun _ => .inl rfl) (.inr ⟨rfl, rfl⟩)
  -- The pair chosen stands at one place, but clauses are compared by value: the replaced clause can
  -- only be met if an earlier one of its label is the same, and then nothing was replaced.
  refine (chosenCase_endsAlike (fun _ _ => Swapped.kind_eq) (fun _ _ => Swapped.text_eq)
    hswapped).imp ?_
  rintro c d hc hd (rfl | ⟨rfl, rfl⟩)
  · exact forall₂_alike c.children
  have hearlier : ∃ earlier ∈ left.drop 1, earlier.text = label := by
    by_contra hnone
    exact h ⟨hc, fun earlier hmem htext => hnone ⟨earlier, hmem, htext⟩⟩
  obtain ⟨earlier, hmem, hlabel⟩ := hearlier
  cases left with
  | nil => cases hmem
  | cons discriminant left =>
    have hold := find?_of_earlier (find?_of_chosenCase hc).2 hmem hlabel
    have hnew := find?_of_earlier (find?_of_chosenCase hd).2 hmem hlabel
    have hsame : Node.mk .caseClause label old = .mk .caseClause label new :=
      Option.some.inj (hold.symm.trans hnew)
    rw [hsame]
    exact forall₂_alike new

/-- Switches that are alike choose clauses that are alike. -/
theorem Alike.chosenCase (h : Alike scene old new s t) (hkind : s.kind = .switch) :
    EndsAlike (fun c d => List.Forall₂ (Alike scene old new) c.children d.children)
      (scene.chosenCase s) (scene.chosenCase t) := by
  rcases h with rfl | h
  · exact .refl (fun c => forall₂_alike c.children) _
  cases h with
  | unchosen h => exact chosenCase_of_unchosen h
  | inside h =>
    refine (chosenCase_endsAlike (fun _ _ => kind_eq) (fun _ _ => text_eq)
      (forall₂_middle refl (.inr h))).imp ?_
    intro c d hc _ hcd
    exact hcd.children (by simp [(find?_of_chosenCase hc).1])

/-- **A case that is not chosen makes no difference.** -/
theorem corresponds_alike : Corresponds scene scene (Alike scene old new) where
  layout := rfl
  kind := Alike.kind_eq
  text := Alike.text_eq
  arguments := Alike.arguments
  chosenCase := Alike.chosenCase
  clauses h hkind := h.children (by simp [hkind])
  condition := Alike.condition
  otherwise h hkind := h.children (by simp [hkind])

end Alike

/-! ## Trees without switches -/

mutual

/-- The statements with those of the chosen case in place of each switch, also in the clauses of a
chain.  A switch without a chosen case stays. -/
def specialize (scene : Scene) : List Node → List Node
  | [] => []
  | statement :: rest =>
    match statement.kind with
    | .switch =>
      match _h : scene.chosenCase statement with
      | .ok clause => specialize scene clause.children ++ specialize scene rest
      | .error _ => statement :: specialize scene rest
    | .ifChain =>
      .mk .ifChain statement.text (specializeClauses scene statement.children) ::
        specialize scene rest
    | _ => statement :: specialize scene rest
termination_by statements => Node.sizeAll statements
decreasing_by
  all_goals have := statement.size_eq
  all_goals simp only [Node.sizeAll_cons]
  · have := chosenCase_size _h
    omega
  all_goals omega

/-- The clauses of a chain with specialized statements.  A condition stays as it is. -/
def specializeClauses (scene : Scene) : List Node → List Node
  | [] => []
  | clause :: clauses =>
    match clause.kind with
    | .ifClause =>
      .mk .ifClause clause.text
          (clause.children.take 1 ++ specialize scene (clause.children.drop 1)) ::
        specializeClauses scene clauses
    | .elseClause =>
      .mk .elseClause clause.text (specialize scene clause.children) ::
        specializeClauses scene clauses
    | _ => clause :: specializeClauses scene clauses
termination_by clauses => Node.sizeAll clauses
decreasing_by
  all_goals have := clause.size_eq
  all_goals simp only [Node.sizeAll_cons]
  · have : Node.sizeAll (clause.children.drop 1) ≤ Node.sizeAll clause.children := by
      cases clause.children <;> simp
    omega
  all_goals omega

end

/-- A clause of a chain with specialized statements. -/
def specializeClause (scene : Scene) (clause : Node) : Node :=
  match clause.kind with
  | .ifClause =>
    .mk .ifClause clause.text (clause.children.take 1 ++ scene.specialize (clause.children.drop 1))
  | .elseClause => .mk .elseClause clause.text (scene.specialize clause.children)
  | _ => clause

/-- A replacement side with the chosen cases in place of its switches. -/
def specialized (scene : Scene) (node : Node) : Node :=
  .mk node.kind node.text (scene.specialize node.children)

section Equations

variable {statement clause : Node} {statements rest clauses : List Node}

/-- A switch is replaced by the clause that is chosen. -/
theorem specialize_switch (hkind : statement.kind = .switch)
    (hclause : scene.chosenCase statement = .ok clause) :
    scene.specialize (statement :: rest)
      = scene.specialize clause.children ++ scene.specialize rest := by
  rw [specialize]
  simp only [hkind]
  split
  case h_1 hother => rw [Except.ok.inj (hclause.symm.trans hother)]
  case h_2 hother => cases hclause.symm.trans hother

/-- A switch without a clause to choose is left as it is. -/
theorem specialize_unresolved {fault : Fault} (hkind : statement.kind = .switch)
    (hclause : scene.chosenCase statement = .error fault) :
    scene.specialize (statement :: rest) = statement :: scene.specialize rest := by
  rw [specialize]
  simp only [hkind]
  split
  case h_1 hother => cases hclause.symm.trans hother
  case h_2 => rfl

/-- A chain is specialized clause by clause. -/
theorem specialize_chain (hkind : statement.kind = .ifChain) :
    scene.specialize (statement :: rest)
      = .mk .ifChain statement.text (scene.specializeClauses statement.children) ::
        scene.specialize rest := by
  rw [specialize]
  simp only [hkind]

theorem specialize_other (hswitch : statement.kind ≠ .switch) (hchain : statement.kind ≠ .ifChain) :
    scene.specialize (statement :: rest) = statement :: scene.specialize rest := by
  rw [specialize]
  split
  case h_1 h => exact absurd h hswitch
  case h_2 h => exact absurd h hchain
  case h_3 => rfl

/-- Statements are specialized one by one. -/
theorem specialize_append : scene.specialize (statements ++ rest)
    = scene.specialize statements ++ scene.specialize rest := by
  induction statements with
  | nil => rw [List.nil_append, specialize, List.nil_append]
  | cons statement statements ih =>
    rw [List.cons_append]
    by_cases hswitch : statement.kind = .switch
    · cases hclause : scene.chosenCase statement with
      | error fault =>
        rw [specialize_unresolved hswitch hclause, specialize_unresolved hswitch hclause, ih,
          List.cons_append]
      | ok clause =>
        rw [specialize_switch hswitch hclause, specialize_switch hswitch hclause, ih,
          List.append_assoc]
    · by_cases hchain : statement.kind = .ifChain
      · rw [specialize_chain hchain, specialize_chain hchain, ih, List.cons_append]
      · rw [specialize_other hswitch hchain, specialize_other hswitch hchain, ih,
          List.cons_append]

theorem specializeClauses_eq_map :
    scene.specializeClauses clauses = clauses.map scene.specializeClause := by
  induction clauses with
  | nil => rw [specializeClauses, List.map_nil]
  | cons clause clauses ih =>
    rw [specializeClauses, List.map_cons, specializeClause.eq_def, ih]
    split <;> rfl

theorem specializeClause_ifClause (hkind : clause.kind = .ifClause) :
    scene.specializeClause clause = .mk .ifClause clause.text
      (clause.children.take 1 ++ scene.specialize (clause.children.drop 1)) := by
  simp only [specializeClause, hkind]

theorem specializeClause_elseClause (hkind : clause.kind = .elseClause) :
    scene.specializeClause clause
      = .mk .elseClause clause.text (scene.specialize clause.children) := by
  simp only [specializeClause, hkind]

theorem specializeClause_other (hif : clause.kind ≠ .ifClause) (helse : clause.kind ≠ .elseClause) :
    scene.specializeClause clause = clause := by
  unfold specializeClause
  split
  case h_1 h => exact absurd h hif
  case h_2 h => exact absurd h helse
  case h_3 => rfl

theorem kind_specializeClause : (scene.specializeClause clause).kind = clause.kind := by
  by_cases hif : clause.kind = .ifClause
  · rw [specializeClause_ifClause hif, hif, Node.kind_mk]
  · by_cases helse : clause.kind = .elseClause
    · rw [specializeClause_elseClause helse, helse, Node.kind_mk]
    · rw [specializeClause_other hif helse]

/-- A specialized clause has the same condition, and the specialized body. -/
theorem condition_specializeClause (hkind : clause.kind = .ifClause) :
    EndsAlike (fun c d => c.1 = d.1 ∧ c.2 = scene.specialize d.2)
      (scene.condition (scene.specializeClause clause)) (scene.condition clause) := by
  rw [specializeClause_ifClause hkind]
  unfold condition
  cases clause.children with
  | nil =>
    rw [List.take_nil, List.drop_nil, specialize]
    exact .error _
  | cons expression body =>
    dsimp only [Node.children_mk, List.take_succ_cons, List.drop_succ_cons, List.take_zero,
      List.drop_zero, List.cons_append, List.nil_append]
    split
    case isTrue => exact .bind_same fun _ _ => .ok ⟨rfl, rfl⟩
    case isFalse => exact .error _

end Equations

mutual

/-- **The statements of the chosen cases stand for the switches.** -/
theorem compile_specialize : ∀ {linked : Option Linked} {count : Nat} {statements : List Node},
    scene.compile linked count (scene.specialize statements)
      = scene.compile linked count statements
  | linked, count, [] => by rw [specialize]
  | linked, count, statement :: rest => by
    have hpos := statement.size_pos
    by_cases hswitch : statement.kind = .switch
    · cases hclause : scene.chosenCase statement with
      | error fault =>
        rw [specialize_unresolved hswitch hclause, compile_switch hswitch, compile_switch hswitch,
          hclause]
        rfl
      | ok clause =>
        have hsize := chosenCase_size hclause
        rw [specialize_switch hswitch hclause, ← specialize_append, compile_specialize,
          compile_switch hswitch, hclause]
        rfl
    · by_cases hchain : statement.kind = .ifChain
      · rw [specialize_chain hchain, specializeClauses_eq_map]
        cases hchildren : statement.children with
        | nil =>
          rw [compile_chain_nil hchain hchildren]
          exact compile_chain_nil rfl rfl
        | cons clause clauses =>
          have hsize : statement.size = 1 + (clause.size + Node.sizeAll clauses) := by
            rw [statement.size_eq, hchildren, Node.sizeAll_cons]
          have hcpos := clause.size_pos
          by_cases hif : clause.kind = .ifClause
          · rw [compile_chain hchain hchildren hif, compile_chain rfl rfl
              (kind_specializeClause.trans hif)]
            refine clause_eq (condition_specializeClause hif) (fun _ _ _ hd hcd => ?_) fun _ => ?_
            · have hcsize := condition_size hd
              exact ⟨hcd.1, by rw [hcd.2, ← specialize_append, compile_specialize]⟩
            · exact compileClauses_specialize
          · rw [compile_chain_refused hchain hchildren hif]
            exact compile_chain_refused rfl rfl fun hno =>
              hif (kind_specializeClause.symm.trans hno)
      · rw [specialize_other hswitch hchain]
        by_cases hconstruct : statement.kind = .construct
        · rw [compile_construct hconstruct, compile_construct hconstruct, compile_specialize]
        · by_cases hreuse : statement.kind = .reuse
          · rw [compile_reuse hreuse, compile_reuse hreuse, compile_specialize]
          · have hrefused : ¬ IsStatementKind statement.kind := by
              simp [IsStatementKind, *]
            rw [compile_refused hrefused, compile_refused hrefused]
termination_by _ _ statements => Node.sizeAll statements
decreasing_by all_goals simp only [Node.sizeAll_cons, Node.sizeAll_append]; omega

/-- Specialized clauses compile to the same code. -/
theorem compileClauses_specialize :
    ∀ {linked : Option Linked} {count : Nat} {clauses rest : List Node},
    scene.compileClauses linked count (clauses.map scene.specializeClause) (scene.specialize rest)
      = scene.compileClauses linked count clauses rest
  | linked, count, [], rest => by rw [List.map_nil, compileClauses, compileClauses]
  | linked, count, clause :: clauses, rest => by
    have hpos := clause.size_pos
    have hsize := clause.size_eq
    rw [List.map_cons]
    by_cases hif : clause.kind = .ifClause
    · rw [compileClauses_elseIf hif, compileClauses_elseIf (kind_specializeClause.trans hif)]
      refine clause_eq (condition_specializeClause hif) (fun _ _ _ hd hcd => ?_) fun _ => ?_
      · have hcsize := condition_size hd
        exact ⟨hcd.1, by rw [hcd.2, ← specialize_append, compile_specialize]⟩
      · exact compileClauses_specialize
    · by_cases helse : clause.kind = .elseClause
      · rw [specializeClause_elseClause helse, compileClauses_otherwise rfl,
          compileClauses_otherwise helse, Node.children_mk, ← specialize_append, compile_specialize]
        cases clauses with
        | nil => rfl
        | cons other clauses => simp only [List.map_cons, kind_specializeClause]
      · rw [specializeClause_other hif helse, compileClauses_refused hif helse,
          compileClauses_refused hif helse]
termination_by _ _ clauses rest => Node.sizeAll clauses + Node.sizeAll rest
decreasing_by all_goals simp only [Node.sizeAll_cons, Node.sizeAll_append]; omega

end

/-- **A statement outside the cases that are not chosen**: one of the statements, or one in the
chosen case of a switch or in a clause of a chain among them. -/
inductive Occurs (scene : Scene) : List Node → Node → Prop where
  | here {statements : List Node} {statement : Node} (h : statement ∈ statements) :
    Occurs scene statements statement
  | chosen {statements : List Node} {switch clause statement : Node} (hmem : switch ∈ statements)
    (hkind : switch.kind = .switch) (hclause : scene.chosenCase switch = .ok clause)
    (h : Occurs scene clause.children statement) : Occurs scene statements statement
  | ifClause {statements : List Node} {chain clause statement : Node} (hmem : chain ∈ statements)
    (hkind : chain.kind = .ifChain) (hclause : clause ∈ chain.children)
    (hif : clause.kind = .ifClause) (h : Occurs scene (clause.children.drop 1) statement) :
    Occurs scene statements statement
  | elseClause {statements : List Node} {chain clause statement : Node} (hmem : chain ∈ statements)
    (hkind : chain.kind = .ifChain) (hclause : clause ∈ chain.children)
    (helse : clause.kind = .elseClause) (h : Occurs scene clause.children statement) :
    Occurs scene statements statement

section Occurs

variable {statements : List Node} {statement : Node}

/-- What occurs in some statements occurs in more of them. -/
theorem Occurs.mono {more : List Node} (h : scene.Occurs statements statement)
    (hsubset : ∀ s ∈ statements, s ∈ more) : scene.Occurs more statement := by
  cases h with
  | here hmem => exact .here (hsubset _ hmem)
  | chosen hmem hkind hclause h => exact .chosen (hsubset _ hmem) hkind hclause h
  | ifClause hmem hkind hclause hif h => exact .ifClause (hsubset _ hmem) hkind hclause hif h
  | elseClause hmem hkind hclause helse h =>
    exact .elseClause (hsubset _ hmem) hkind hclause helse h

/-- What occurs in a statement that occurs, occurs. -/
theorem Occurs.trans {inner : Node} (h : scene.Occurs statements statement)
    (hinner : scene.Occurs [statement] inner) : scene.Occurs statements inner := by
  induction h with
  | here hmem => exact hinner.mono fun s hs => List.mem_singleton.1 hs ▸ hmem
  | chosen hmem hkind hclause _ ih => exact .chosen hmem hkind hclause (ih hinner)
  | ifClause hmem hkind hclause hif _ ih => exact .ifClause hmem hkind hclause hif (ih hinner)
  | elseClause hmem hkind hclause helse _ ih =>
    exact .elseClause hmem hkind hclause helse (ih hinner)

/-- What becomes of a statement that no case takes the place of. -/
inductive Kept (scene : Scene) : Node → Node → Prop where
  | unresolved {switch : Node} {fault : Fault} (hkind : switch.kind = .switch)
    (h : scene.chosenCase switch = .error fault) : Kept scene switch switch
  | chain {chain : Node} (hkind : chain.kind = .ifChain) :
    Kept scene chain (.mk .ifChain chain.text (chain.children.map scene.specializeClause))
  | other {statement : Node} (hswitch : statement.kind ≠ .switch)
    (hchain : statement.kind ≠ .ifChain) : Kept scene statement statement

/-- Each statement that is left comes from one that occurs, and is kept of it. -/
theorem exists_kept_of_mem (h : statement ∈ scene.specialize statements) :
    ∃ origin, scene.Occurs statements origin ∧ scene.Kept origin statement := by
  induction hsize : Node.sizeAll statements using Nat.strong_induction_on
    generalizing statements with
  | _ size ih =>
  subst hsize
  cases statements with
  | nil => simp [specialize] at h
  | cons first rest =>
    have hpos := first.size_pos
    have hrest (hmem : statement ∈ scene.specialize rest) :
        ∃ origin, scene.Occurs (first :: rest) origin ∧ scene.Kept origin statement := by
      obtain ⟨origin, horigin, hkept⟩ := ih _ (by simp; omega) hmem rfl
      exact ⟨origin, horigin.mono fun _ => List.mem_cons_of_mem _, hkept⟩
    by_cases hswitch : first.kind = .switch
    · cases hclause : scene.chosenCase first with
      | error fault =>
        rw [specialize_unresolved hswitch hclause] at h
        rcases List.mem_cons.1 h with rfl | h
        · exact ⟨statement, .here List.mem_cons_self, .unresolved hswitch hclause⟩
        · exact hrest h
      | ok clause =>
        rw [specialize_switch hswitch hclause] at h
        rcases List.mem_append.1 h with h | h
        · have hclauseSize := chosenCase_size hclause
          obtain ⟨origin, horigin, hkept⟩ := ih _ (by simp; omega) h rfl
          exact ⟨origin, .chosen List.mem_cons_self hswitch hclause horigin, hkept⟩
        · exact hrest h
    · by_cases hchain : first.kind = .ifChain
      · rw [specialize_chain hchain, specializeClauses_eq_map] at h
        rcases List.mem_cons.1 h with rfl | h
        · exact ⟨first, .here List.mem_cons_self, .chain hchain⟩
        · exact hrest h
      · rw [specialize_other hswitch hchain] at h
        rcases List.mem_cons.1 h with rfl | h
        · exact ⟨statement, .here List.mem_cons_self, .other hswitch hchain⟩
        · exact hrest h

theorem drop_one_specializeClause {clause : Node} (hkind : clause.kind = .ifClause) :
    (scene.specializeClause clause).children.drop 1
      = scene.specialize (clause.children.drop 1) := by
  rw [specializeClause_ifClause hkind, Node.children_mk]
  cases clause.children with
  | nil => rw [List.take_nil, List.drop_nil, specialize, List.nil_append, List.drop_nil]
  | cons => rfl

/-- **A switch that is left is one without a chosen case.** -/
theorem unresolved_of_occurs_specialize (h : scene.Occurs (scene.specialize statements) statement)
    (hkind : statement.kind = .switch) :
    scene.Occurs statements statement ∧ ∃ fault, scene.chosenCase statement = .error fault := by
  -- Along the way to the switch: a chain that is left comes from one that occurs, whose clauses
  -- hold specialized statements again; a switch that is left has no chosen case to go into.
  generalize hspecialized : scene.specialize statements = specialized at h
  induction h generalizing statements with
  | here hmem =>
    obtain ⟨origin, horigin, hkept⟩ := exists_kept_of_mem (hspecialized ▸ hmem)
    cases hkept with
    | unresolved _ h => exact ⟨horigin, _, h⟩
    | chain => cases hkind
    | other hswitch => exact absurd hkind hswitch
  | chosen hmem hswitch hclause =>
    obtain ⟨origin, -, hkept⟩ := exists_kept_of_mem (hspecialized ▸ hmem)
    cases hkept with
    | unresolved _ h => cases hclause.symm.trans h
    | chain => cases hswitch
    | other hother => exact absurd hswitch hother
  | ifClause hmem hchain hclause hif _ ih =>
    obtain ⟨origin, horigin, hkept⟩ := exists_kept_of_mem (hspecialized ▸ hmem)
    cases hkept with
    | unresolved hswitch => simp [hswitch] at hchain
    | other _ hother => exact absurd hchain hother
    | chain horiginKind =>
      obtain ⟨clause, hclauseMem, rfl⟩ := List.mem_map.1 hclause
      rw [kind_specializeClause] at hif
      obtain ⟨hoccurs, hfault⟩ := ih hkind (drop_one_specializeClause hif).symm
      exact
        ⟨horigin.trans (.ifClause List.mem_cons_self horiginKind hclauseMem hif hoccurs), hfault⟩
  | elseClause hmem hchain hclause helse _ ih =>
    obtain ⟨origin, horigin, hkept⟩ := exists_kept_of_mem (hspecialized ▸ hmem)
    cases hkept with
    | unresolved hswitch => simp [hswitch] at hchain
    | other _ hother => exact absurd hchain hother
    | chain horiginKind =>
      obtain ⟨clause, hclauseMem, rfl⟩ := List.mem_map.1 hclause
      rw [kind_specializeClause] at helse
      obtain ⟨hoccurs, hfault⟩ :=
        ih hkind (by rw [specializeClause_elseClause helse, Node.children_mk])
      exact ⟨horigin.trans
        (.elseClause List.mem_cons_self horiginKind hclauseMem helse hoccurs), hfault⟩

end Occurs

/-! ## Replacement sides -/

/-- Replacements whose statements compile alike compile alike. -/
theorem replacement_of_compile_eq {node other : Node} (hkind : node.kind = other.kind)
    (h : node.kind = .replacement →
      scene.compile none 0 node.children = scene.compile none 0 other.children) :
    scene.replacement node = scene.replacement other := by
  rw [replacement, replacement, ← hkind]
  split
  case isTrue hreplacement => rw [h hreplacement]
  case isFalse => rfl

/-- **A choice decides the switches of a replacement side, and exactly those.**  The statements of
a case that is not chosen make no difference, where the switch stands as a statement or what they
refer to is captured; and a replacement side comes out as the one with the chosen cases in place of
its switches, which has no switch left if each one outside the cases not chosen has its case. -/
theorem replacement_specialized (scene : Scene) (node : Node) :
    (∀ old new other, Replaced scene old new node other →
      scene.replacement other = scene.replacement node) ∧
    scene.replacement (scene.specialized node) = scene.replacement node ∧
    ((∀ switch, scene.Occurs node.children switch → switch.kind = .switch →
        ∃ clause, scene.chosenCase switch = .ok clause) →
      ∀ statement, scene.Occurs (scene.specialized node).children statement →
        statement.kind ≠ .switch) := by
  refine ⟨fun old new other h => ?_, ?_, fun hresolved statement hoccurs hkind => ?_⟩
  · refine (replacement_of_compile_eq h.kind_eq fun hkind => ?_).symm
    have halike : Alike scene old new node other := .inr h
    exact corresponds_alike.compile_eq (halike.children (by simp [hkind]))
  · exact replacement_of_compile_eq rfl fun _ => compile_specialize
  · obtain ⟨hswitch, fault, hfault⟩ := unresolved_of_occurs_specialize hoccurs hkind
    obtain ⟨clause, hclause⟩ := hresolved statement hswitch hkind
    cases hclause.symm.trans hfault

namespace Either

/-- An element `x` that asks for `a` or `b` and captures `x`, where `a` is chosen. -/
def givenA : Scene where
  layout := ⟨[⟨"x", true, "instr_x", some (.slot 0)⟩], ["x"], by simp⟩
  bindings := [⟨"x", "inlined_1", 0⟩]
  choice := ⟨[("x", "a")]⟩

/-- The clause that is chosen, which is empty. -/
def chosen : Node := .leaf .caseClause "a"

/-- A switch on `x` with the given statements for `b`. -/
def switch (body : List Node) : Node :=
  .branch .switch [.leaf .reference "x", chosen, .mk .caseClause "b" body]

theorem not_chooses (body : List Node) :
    ¬ givenA.Chooses (switch body) [chosen] (.mk .caseClause "b" body) := by
  rintro ⟨hclause, -⟩
  have hlabel : "a" = "b" := congrArg Node.text (Except.ok.inj hclause)
  exact absurd hlabel (by decide)

/-- The one switch of the replacement has a clause to choose. -/
theorem resolved {statement : Node} (h : givenA.Occurs [switch []] statement) :
    ∃ clause, givenA.chosenCase statement = .ok clause := by
  cases h with
  | here hmem => exact ⟨chosen, List.mem_singleton.1 hmem ▸ rfl⟩
  | chosen hmem _ hclause h =>
    obtain rfl := List.mem_singleton.1 hmem
    obtain rfl : chosen = _ := Except.ok.inj hclause
    rcases h with hmem | hmem | hmem | hmem <;> cases hmem
  | ifClause hmem hchain => rw [List.mem_singleton.1 hmem] at hchain; cases hchain
  | elseClause hmem hchain => rw [List.mem_singleton.1 hmem] at hchain; cases hchain

end Either

/-- With `a` chosen, a case for `b` may hold what is no statement, and no switch is left. -/
theorem replacement_specialized_either :
    Either.givenA.replacement (.branch .replacement [Either.switch [.leaf .wildcard "?"]])
        = Either.givenA.replacement (.branch .replacement [Either.switch []]) ∧
      ∀ statement, Either.givenA.Occurs
          (Either.givenA.specialized (.branch .replacement [Either.switch []])).children statement →
        statement.kind ≠ .switch := by
  obtain ⟨hunchosen, -, hfree⟩ :=
    replacement_specialized Either.givenA (.branch .replacement [Either.switch []])
  have hswitch : Replaced Either.givenA [] [.leaf .wildcard "?"] (Either.switch [])
      (Either.switch [.leaf .wildcard "?"]) :=
    @Replaced.unchosen _ _ _ "" "b" [.leaf .reference "x", Either.chosen] [] (Either.not_chooses [])
  refine ⟨hunchosen [] [.leaf .wildcard "?"] _ ?_, hfree fun _ hswitch _ => Either.resolved hswitch⟩
  refine @Replaced.inside _ _ _ .replacement "" [] [] _ _ hswitch fun hoperand => ?_
  rcases hoperand with hkind | ⟨hkind, -⟩ <;> cases hkind

/-- **A case that is not chosen can be to blame** where its switch stands for an argument: the fault
is then the first name in it that is not captured. -/
theorem unchosen_case_blamed :
    ¬ Either.givenA.Chooses (Either.switch []) [Either.chosen] (.mk .caseClause "b" []) ∧
      Either.givenA.replacement
          (.branch .replacement [.mk .construct "nop" [Either.switch []]])
        = .error (.malformed .switch .notAnExpression) ∧
      Either.givenA.replacement
          (.branch .replacement [.mk .construct "nop" [Either.switch [.leaf .reference "q"]]])
        = .error (.undefined "q") :=
  ⟨Either.not_chooses [],
    replacement_eq_error rfl .refl ((compile_construct rfl).trans rfl),
    replacement_eq_error rfl .refl ((compile_construct rfl).trans rfl)⟩

end Scene

end Peephole

import Mathlib.Data.List.Forall2
import Peephole.Proofs.Outcomes
import Peephole.Proofs.Replacement.Reaches

/-!
# Proofs/Replacement/Congruence — statements that are compiled alike

A compilation looks at a statement in few ways: its kind and text, its arguments, the chosen case of
a switch, the condition of a clause, and the statements below it.  `Corresponds` says of two scenes
and a relation between trees that what is related looks the same in each of these ways, up to
statements that are related again.  Then related statements have the same code, or the same fault
(`Corresponds.compile_eq`).
-/

namespace Peephole

namespace Scene

variable {scene other : Scene} {Related : Node → Node → Prop}

/-- **Two scenes see related statements alike.** -/
structure Corresponds (scene other : Scene) (Related : Node → Node → Prop) : Prop where
  layout : scene.layout = other.layout
  kind : ∀ {s t : Node}, Related s t → s.kind = t.kind
  text : ∀ {s t : Node}, Related s t → s.text = t.text
  arguments : ∀ {s t : Node}, Related s t → s.kind = .construct →
    scene.arguments s.children = other.arguments t.children
  chosenCase : ∀ {s t : Node}, Related s t → s.kind = .switch →
    EndsAlike (fun c d => List.Forall₂ Related c.children d.children) (scene.chosenCase s)
      (other.chosenCase t)
  clauses : ∀ {s t : Node}, Related s t → s.kind = .ifChain →
    List.Forall₂ Related s.children t.children
  condition : ∀ {s t : Node}, Related s t → s.kind = .ifClause →
    EndsAlike (fun c d => c.1 = d.1 ∧ List.Forall₂ Related c.2 d.2) (scene.condition s)
      (other.condition t)
  otherwise : ∀ {s t : Node}, Related s t → s.kind = .elseClause →
    List.Forall₂ Related s.children t.children

/-! ## What is refused -/

/-- A chain without clauses is malformed. -/
theorem compile_chain_nil {linked : Option Linked} {count : Nat} {statement : Node}
    {rest : List Node} (hkind : statement.kind = .ifChain) (hchildren : statement.children = []) :
    scene.compile linked count (statement :: rest) = .error (.malformed .ifChain .missingIf) := by
  rw [compile]
  simp only [hkind]
  split
  case h_1 hcons => simp [hchildren] at hcons
  case h_2 => rfl

/-- A chain whose first clause has no condition is malformed. -/
theorem compile_chain_refused {linked : Option Linked} {count : Nat} {statement clause : Node}
    {clauses rest : List Node} (hkind : statement.kind = .ifChain)
    (hchildren : statement.children = clause :: clauses) (hclause : clause.kind ≠ .ifClause) :
    scene.compile linked count (statement :: rest) = .error (.malformed .ifChain .missingIf) := by
  rw [compile]
  simp only [hkind]
  split
  case h_1 hcons =>
    obtain ⟨rfl, rfl⟩ := List.cons.inj (hchildren.symm.trans hcons)
    rw [if_pos hclause]
  case h_2 hnil => simp [hchildren] at hnil

/-- A kind that statements have. -/
def IsStatementKind (kind : Kind) : Prop :=
  kind = .construct ∨ kind = .reuse ∨ kind = .switch ∨ kind = .ifChain

/-- What is no statement is malformed. -/
theorem compile_refused {linked : Option Linked} {count : Nat} {statement : Node}
    {rest : List Node} (hkind : ¬ IsStatementKind statement.kind) :
    scene.compile linked count (statement :: rest)
      = .error (.malformed statement.kind .notAStatement) := by
  simp only [IsStatementKind, not_or] at hkind
  rw [compile]
  split
  case h_1 h => exact absurd h hkind.1
  case h_2 h => exact absurd h hkind.2.1
  case h_3 h => exact absurd h hkind.2.2.1
  case h_4 h => exact absurd h hkind.2.2.2
  case h_5 => rfl

/-- Among the further clauses of a chain, what is no clause is misplaced. -/
theorem compileClauses_refused {linked : Option Linked} {count : Nat} {clause : Node}
    {clauses rest : List Node} (hif : clause.kind ≠ .ifClause) (helse : clause.kind ≠ .elseClause) :
    scene.compileClauses linked count (clause :: clauses) rest
      = .error (.malformed clause.kind .misplacedClause) := by
  rw [compileClauses]
  split
  case h_1 h => exact absurd h hif
  case h_2 h => exact absurd h helse
  case h_3 => rfl

/-! ## Related statements -/

/-- Lists of arguments compile alike if their members do, one by one. -/
theorem arguments_eq_of_forall₂ {expressions others : List Node}
    (h : List.Forall₂ (fun e f => scene.argument e = other.argument f) expressions others) :
    scene.arguments expressions = other.arguments others := by
  induction h with
  | nil => rfl
  | cons hfirst _ ih => rw [arguments, arguments, hfirst, ih]

/-- Clauses are compiled alike if their conditions and statements are, and what stands behind. -/
theorem clause_eq {α : Type} {make : Expr → Body → Branch → α} {linked : Option Linked}
    {count : Nat} {clause clause' : Node} {clauses clauses' rest rest' : List Node}
    {Related : Expr × List Node → Expr × List Node → Prop}
    (hcondition : EndsAlike Related (scene.condition clause) (other.condition clause'))
    (hfirst : ∀ c d, scene.condition clause = .ok c → other.condition clause' = .ok d →
      Related c d → c.1 = d.1 ∧
        scene.compile linked count (c.2 ++ rest) = other.compile linked count (d.2 ++ rest'))
    (hmore : ∀ count, scene.compileClauses linked count clauses rest
      = other.compileClauses linked count clauses' rest') :
    (do
      let (condition, statements) ← scene.condition clause
      let (body, count) ← scene.compile linked count (statements ++ rest)
      let (more, total) ← scene.compileClauses linked count clauses rest
      return (make condition body more, total)) = do
      let (condition, statements) ← other.condition clause'
      let (body, count) ← other.compile linked count (statements ++ rest')
      let (more, total) ← other.compileClauses linked count clauses' rest'
      return (make condition body more, total) := by
  refine hcondition.bind_eq fun c d hc hd hcd => ?_
  obtain ⟨hexpr, hbody⟩ := hfirst c d hc hd hcd
  dsimp only
  rw [hexpr, hbody]
  simp only [hmore]

-- What stands behind a chain is compiled once per clause, so the induction is not on the tree but,
-- as that of `compile`, on the number of nodes still to come.
mutual

/-- **Related statements have the same code, or the same fault.** -/
theorem Corresponds.compile_eq (h : Corresponds scene other Related) :
    ∀ {linked : Option Linked} {count : Nat} {statements others : List Node},
    List.Forall₂ Related statements others →
      scene.compile linked count statements = other.compile linked count others
  | linked, count, [], [], .nil => by
    rw [compile, compile, splice.eq_def, splice.eq_def, h.layout]
  | linked, count, s :: rest, t :: more, .cons hs hrest => by
    have hkind := h.kind hs
    have hpos := s.size_pos
    by_cases hstatement : IsStatementKind s.kind
    · rcases hstatement with hconstruct | hreuse | hswitch | hchain
      · rw [compile_construct hconstruct, compile_construct (hkind ▸ hconstruct),
          h.arguments hs hconstruct, h.text hs, h.compile_eq hrest]
      · rw [compile_reuse hreuse, compile_reuse (hkind ▸ hreuse), h.text hs, h.layout,
          h.compile_eq hrest]
      · rw [compile_switch hswitch, compile_switch (hkind ▸ hswitch)]
        refine (h.chosenCase hs hswitch).bind_eq fun c d hc _ hcd => ?_
        have hsize := chosenCase_size hc
        exact h.compile_eq (List.rel_append hcd hrest)
      · have hclauses := h.clauses hs hchain
        cases hs' : s.children with
        | nil =>
          rw [hs'] at hclauses
          rw [compile_chain_nil hchain hs',
            compile_chain_nil (hkind ▸ hchain) (List.forall₂_nil_left_iff.1 hclauses)]
        | cons c clauses =>
          rw [hs'] at hclauses
          obtain ⟨d, others, hd, hmore, ht⟩ := List.forall₂_cons_left_iff.1 hclauses
          have hsize : s.size = 1 + (c.size + Node.sizeAll clauses) := by
            rw [s.size_eq, hs', Node.sizeAll_cons]
          have hcpos := c.size_pos
          by_cases hif : c.kind = .ifClause
          · rw [compile_chain hchain hs' hif,
              compile_chain (hkind ▸ hchain) ht ((h.kind hd).symm.trans hif)]
            refine clause_eq (h.condition hd hif) (fun _ _ hc _ hcd => ?_) fun _ => ?_
            · have hcsize := condition_size hc
              exact ⟨hcd.1, h.compile_eq (List.rel_append hcd.2 hrest)⟩
            · exact h.compileClauses_eq hmore hrest
          · rw [compile_chain_refused hchain hs' hif, compile_chain_refused (hkind ▸ hchain) ht
              fun hno => hif ((h.kind hd).trans hno)]
    · rw [compile_refused hstatement, compile_refused (hkind ▸ hstatement), hkind]
termination_by _ _ statements => Node.sizeAll statements
decreasing_by all_goals simp only [Node.sizeAll_cons, Node.sizeAll_append]; omega

/-- Clauses that correspond compile alike, with what stands behind them. -/
theorem Corresponds.compileClauses_eq (h : Corresponds scene other Related) :
    ∀ {linked : Option Linked} {count : Nat} {clauses others rest more : List Node},
    List.Forall₂ Related clauses others → List.Forall₂ Related rest more →
      scene.compileClauses linked count clauses rest = other.compileClauses linked count others more
  | linked, count, [], [], rest, more, .nil, _ => by rw [compileClauses, compileClauses]
  | linked, count, c :: clauses, d :: others, rest, more, .cons hd hmore, hrest => by
    have hkind := h.kind hd
    have hpos := c.size_pos
    have hsize := c.size_eq
    by_cases hif : c.kind = .ifClause
    · rw [compileClauses_elseIf hif, compileClauses_elseIf (hkind ▸ hif)]
      refine clause_eq (h.condition hd hif) (fun _ _ hc _ hcd => ?_) fun _ => ?_
      · have hcsize := condition_size hc
        exact ⟨hcd.1, h.compile_eq (List.rel_append hcd.2 hrest)⟩
      · exact h.compileClauses_eq hmore hrest
    · by_cases helse : c.kind = .elseClause
      · rw [compileClauses_otherwise helse, compileClauses_otherwise (hkind ▸ helse),
          h.compile_eq (List.rel_append (h.otherwise hd helse) hrest)]
        cases hmore with
        | nil => rfl
        | cons hnext _ => simp only [h.kind hnext]
      · rw [compileClauses_refused hif helse, compileClauses_refused (hkind ▸ hif) (hkind ▸ helse),
          hkind]
termination_by _ _ clauses _ rest => Node.sizeAll clauses + Node.sizeAll rest
decreasing_by all_goals simp only [Node.sizeAll_cons, Node.sizeAll_append]; omega

end

/-! ## Bindings -/

section Bindings

variable {layout : Layout} {bindings others : List Binding} {choice : Choice}
  (h : ∀ name, Binding.slotNamed? bindings name = Binding.slotNamed? others name)

include h

/-- A switch chooses by name and slot, so equal slots choose equal clauses. -/
theorem chosenCase_eq_of_slots (switch : Node) :
    chosenCase ⟨layout, bindings, choice⟩ switch = chosenCase ⟨layout, others, choice⟩ switch := by
  have hinstruction (name : String) : instructionOf ⟨layout, bindings, choice⟩ name
      = instructionOf ⟨layout, others, choice⟩ name := by
    unfold instructionOf
    rw [h]
  unfold chosenCase
  simp only [hinstruction]

/-- A scene sees of its bindings which slot a name has. -/
theorem corresponds_of_slots :
    Corresponds ⟨layout, bindings, choice⟩ ⟨layout, others, choice⟩ Eq where
  layout := rfl
  kind := congrArg _
  text := congrArg _
  arguments hst _ := arguments_eq_of_forall₂
    (hst ▸ List.forall₂_same.2 fun _ _ => rfl)
  chosenCase hst _ := .of_eq (hst ▸ chosenCase_eq_of_slots h _) fun _ => List.forall₂_refl _
  clauses hst _ := hst ▸ List.forall₂_refl _
  condition hst _ := .of_eq (hst ▸ rfl) fun _ => ⟨rfl, List.forall₂_refl _⟩
  otherwise hst _ := hst ▸ List.forall₂_refl _

theorem replacement_eq_of_slots (node : Node) :
    replacement ⟨layout, bindings, choice⟩ node = replacement ⟨layout, others, choice⟩ node := by
  rw [replacement, replacement, (corresponds_of_slots h).compile_eq (List.forall₂_refl _)]

end Bindings

end Scene

end Peephole

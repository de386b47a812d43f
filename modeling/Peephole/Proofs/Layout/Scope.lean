import Peephole.Proofs.C.Scope
import Peephole.Proofs.Layout.Locals

/-!
# Proofs/Layout/Scope — what the lines of a match side declare and use

An element declares its cursor and the locals of its captures, and every line uses what stands
before it: the cursor of the previous element, and the first local of a name that is captured again.
The declarations are distinct (`LaidOut.nodup_declares`) and serve all uses (`LaidOut.inScope`).
Behind the last line, every element has its cursor and every captured name its local.
-/

namespace Peephole

open C

/-! ## Single lines -/

namespace MatchStep

/-- What a line declares. -/
def declares : MatchStep → List String
  | cursor name _ => [name]
  | argument name => [name]
  | opcode _ _ _ => []
  | present _ => []
  | equal _ _ => []

/-- What a line uses.  The first cursor starts from the parameter of the function. -/
def uses : MatchStep → List String
  | cursor _ previous => [previous.getD "c"]
  | argument _ => []
  | opcode _ place arguments => place :: arguments
  | present place => [place, "NULL"]
  | equal later first => [later, first]

theorem declares_arguments (locals : List String) :
    (locals.map argument).flatMap declares = locals := by
  simp [List.flatMap_map, declares]

theorem introduced_toStmt (values : List String) (step : MatchStep) :
    (step.toStmt values).introduced = step.declares := by
  rcases step with ⟨_, _ | _⟩ | _ | _ | _ | _ <;> rfl

theorem declared_toStmt (values : List String) (step : MatchStep) :
    (step.toStmt values).declared = step.declares := by
  rcases step with ⟨_, _ | _⟩ | _ | _ | _ | _ <;> rfl

theorem flatMap_introduced (values : List String) (steps : List MatchStep) :
    (steps.map (toStmt values)).flatMap Stmt.introduced = steps.flatMap declares := by
  simp only [List.flatMap_map, introduced_toStmt]

theorem declared_map_toStmt (values : List String) (steps : List MatchStep) :
    declared (steps.map (toStmt values)) = steps.flatMap declares := by
  induction steps with
  | nil => rfl
  | cons step steps ih => rw [List.map_cons, declared, declared_toStmt, ih, List.flatMap_cons]

theorem namesAll_addresses (names : List String) :
    Term.namesAll (names.map fun name => .unary .address (.name name)) = names := by
  induction names with
  | nil => rfl
  | cons name names ih => simp [Term.namesAll, Term.names, ih]

/-- A statement is in scope if and only if all that its step uses is known. -/
theorem scoped_toStmt_iff {values known : List String} {step : MatchStep} :
    Stmt.Scoped known (step.toStmt values) ↔ ∀ name ∈ step.uses, name ∈ known := by
  rcases step with ⟨name, _ | previous⟩ | name | ⟨asked, place, arguments⟩ | place | ⟨later, first⟩
  all_goals simp [toStmt, uses, Stmt.Scoped, Scoped, Term.names, Term.namesAll, namesAll_addresses]

end MatchStep

namespace Layout

variable {names : List String} {bindings : List Binding} {position : Nat}
  {previous : Option String} {taken : List String} {numbers after : String → Option Nat}
  {nodes : List Node} {steps equalities : List MatchStep} {elements : List Element}
  {texts locals : List String}

/-! ## Captures -/

/-- A name known behind a capture was known before it or has its local from there on. -/
theorem mem_locals_of_update {captured declared name : String} {number : Nat}
    (hcaptured : numbers captured ≠ none ∨ argumentLocal captured = declared)
    (h : Function.update numbers captured (some number) name ≠ none ∨
      argumentLocal name ∈ locals) :
    numbers name ≠ none ∨ argumentLocal name ∈ declared :: locals := by
  rw [update_ne_none_iff] at h
  obtain (hbefore | rfl) | hlocal := h
  · exact .inl hbefore
  · exact hcaptured.imp_right fun heq => List.mem_cons.2 (.inl heq)
  · exact .inr (List.mem_cons_of_mem _ hlocal)

/-- A name known after captures was known before or has its local among theirs. -/
theorem Capturing.mem_locals (h : Capturing names numbers texts locals equalities after)
    {name : String} (hname : after name ≠ none) :
    numbers name ≠ none ∨ argumentLocal name ∈ locals := by
  induction h with
  | done => exact .inl hname
  | first _ _ ih => exact mem_locals_of_update (.inr rfl) (ih hname)
  | again hused _ ih => exact mem_locals_of_update (.inl (by simp [hused])) (ih hname)

/-- An equality compares a local of these captures with the first local of its name. -/
theorem Capturing.exists_equal (h : Capturing names numbers texts locals equalities after) :
    ∀ step ∈ equalities, ∃ later first, step = .equal later (argumentLocal first) ∧
      later ∈ locals ∧ (numbers first ≠ none ∨ argumentLocal first ∈ locals) := by
  induction h with
  | done => simp
  | first _ _ ih =>
    intro step hstep
    obtain ⟨later, first, rfl, hlater, hfirst⟩ := ih step hstep
    exact ⟨later, first, rfl, List.mem_cons_of_mem _ hlater,
      mem_locals_of_update (.inr rfl) hfirst⟩
  | @again numbers _ name _ _ _ _ hused _ ih =>
    have hname : numbers name ≠ none := by simp [hused]
    rw [List.forall_mem_cons]
    refine ⟨⟨_, name, rfl, List.mem_cons_self, .inl hname⟩, fun step hstep => ?_⟩
    obtain ⟨later, first, rfl, hlater, hfirst⟩ := ih step hstep
    exact ⟨later, first, rfl, List.mem_cons_of_mem _ hlater,
      mem_locals_of_update (.inl hname) hfirst⟩

/-! ## Declarations -/

theorem declares_guardStep (cursor : String) (locals : List String) (opcode : Option Opcode) :
    (guardStep cursor locals opcode).declares = [] := by
  cases opcode <;> rfl

/-- **An element declares its cursor, then the locals of its captures.** -/
theorem Capturing.declares_elementSteps
    (h : Capturing names numbers texts locals equalities after) (cursor : String)
    (opcode : Option Opcode) :
    (elementSteps previous cursor locals opcode equalities).flatMap MatchStep.declares
      = cursor :: locals := by
  have hequalities : equalities.flatMap MatchStep.declares = [] := by
    rw [List.flatMap_eq_nil_iff]
    intro step hstep
    obtain ⟨later, first, rfl, -⟩ := h.exists_equal step hstep
    rfl
  rw [elementSteps, List.flatMap_cons, List.flatMap_append, List.flatMap_cons,
    MatchStep.declares_arguments, declares_guardStep, hequalities]
  simp [MatchStep.declares]

/-- What is declared was fresh. -/
theorem LaidOut.fresh_of_mem_declares
    (h : LaidOut names bindings position previous taken numbers nodes steps elements after)
    (helements : ∀ node ∈ nodes, IsElement node)
    (htexts : ∀ node ∈ nodes, ∀ text ∈ node.childTexts.drop 1, text ∈ names) :
    ∀ name ∈ steps.flatMap MatchStep.declares, Fresh names position taken numbers name := by
  induction h with
  | done => simp
  | element _ hcursor hcaptures _ _ ih =>
    rw [List.forall_mem_cons] at helements htexts
    rw [List.flatMap_append, hcaptures.declares_elementSteps, List.forall_mem_append,
      List.forall_mem_cons]
    refine ⟨⟨hcursor.fresh helements.1, hcaptures.fresh htexts.1⟩, fun name hname => ?_⟩
    have hbetween := hcaptures.fresh_of_fresh htexts.1 (ih helements.2 htexts.2 name hname)
    exact (hcursor.fresh_of_fresh helements.1 hbetween.1).1

/-- **No local of a match side is declared twice.** -/
theorem LaidOut.nodup_declares
    (h : LaidOut names bindings position previous taken numbers nodes steps elements after)
    (helements : ∀ node ∈ nodes, IsElement node)
    (htexts : ∀ node ∈ nodes, ∀ text ∈ node.childTexts.drop 1, text ∈ names) :
    (steps.flatMap MatchStep.declares).Nodup := by
  induction h with
  | done => exact List.nodup_nil
  | @element _ _ _ _ _ _ _ _ _ _ cursor locals _ _ _ _ _ hcursor hcaptures _ hmore ih =>
    rw [List.forall_mem_cons] at helements htexts
    have hfresh := hmore.fresh_of_mem_declares helements.2 htexts.2
    rw [List.flatMap_append, hcaptures.declares_elementSteps, List.cons_append, List.nodup_cons,
      List.nodup_append, List.mem_append, not_or]
    refine ⟨⟨fun hmem => ?_, fun hmem => ?_⟩, hcaptures.nodup htexts.1, ih helements.2 htexts.2,
      fun first hfirst second hsecond heq => ?_⟩
    · exact (hcursor.fresh_of_fresh helements.1 (hcaptures.fresh htexts.1 cursor hmem)).2 rfl
    · have hbetween := (hcaptures.fresh_of_fresh htexts.1 (hfresh cursor hmem)).1
      exact (hcursor.fresh_of_fresh helements.1 hbetween).2 rfl
    · exact (hcaptures.fresh_of_fresh htexts.1 (hfresh second hsecond)).2 (heq ▸ hfirst)

/-- Every element has its cursor. -/
theorem LaidOut.cursor_mem_declares
    (h : LaidOut names bindings position previous taken numbers nodes steps elements after) :
    ∀ element ∈ elements, element.cursor ∈ steps.flatMap MatchStep.declares := by
  induction h with
  | done => simp
  | element _ _ hcaptures _ _ ih =>
    rw [List.flatMap_append, hcaptures.declares_elementSteps, List.forall_mem_cons]
    exact ⟨by simp, fun element helement => List.mem_append_right _ (ih element helement)⟩

/-- Every captured name has its local. -/
theorem LaidOut.argumentLocal_mem_declares
    (h : LaidOut names bindings position previous taken numbers nodes steps elements after)
    {name : String} (hname : after name ≠ none) :
    numbers name ≠ none ∨ argumentLocal name ∈ steps.flatMap MatchStep.declares := by
  induction h with
  | done => exact .inl hname
  | element _ _ hcaptures _ _ ih =>
    rw [List.flatMap_append, hcaptures.declares_elementSteps, List.mem_append, List.mem_cons]
    rcases ih hname with hnumber | hlocal
    · exact (hcaptures.mem_locals hnumber).imp_right fun hmem => .inl (.inr hmem)
    · exact .inr (.inr hlocal)

/-! ## Uses -/

/-- The statements for an element are in scope, where the cursor before it and the captures so far
are. -/
theorem Capturing.inScope (h : Capturing names numbers texts locals equalities after)
    {known : List String} (hnull : "NULL" ∈ known) {cursor : String}
    (hprevious : previous.getD "c" ∈ known)
    (hnumbers : ∀ name, numbers name ≠ none → argumentLocal name ∈ known)
    (opcode : Option Opcode) (values : List String) :
    Scoped known
      ((elementSteps previous cursor locals opcode equalities).map (MatchStep.toStmt values)) := by
  -- the cursor, then the arguments, then what reads them
  rw [elementSteps, List.map_cons, List.map_append, Scoped, scoped_append,
    MatchStep.introduced_toStmt, MatchStep.flatMap_introduced]
  refine ⟨MatchStep.scoped_toStmt_iff.2 (by simpa [MatchStep.uses] using hprevious),
    scoped_of_forall ?_, scoped_of_forall ?_⟩
  · simp [MatchStep.scoped_toStmt_iff, MatchStep.uses]
  · rw [MatchStep.declares_arguments, List.forall_mem_map, List.forall_mem_cons]
    refine ⟨MatchStep.scoped_toStmt_iff.2 ?_, fun step hstep => MatchStep.scoped_toStmt_iff.2 ?_⟩
    · cases opcode <;> simp +contextual [guardStep, MatchStep.uses, MatchStep.declares, hnull]
    · obtain ⟨later, first, rfl, hlater, hfirst⟩ := h.exists_equal step hstep
      have hknown := hfirst.imp_left (hnumbers first)
      simp only [MatchStep.uses, List.mem_append, List.forall_mem_cons]
      tauto

/-- **Every line of a match side uses what stands before it.** -/
theorem LaidOut.inScope
    (h : LaidOut names bindings position previous taken numbers nodes steps elements after)
    {known : List String} (hnull : "NULL" ∈ known) (hprevious : previous.getD "c" ∈ known)
    (hnumbers : ∀ name, numbers name ≠ none → argumentLocal name ∈ known) (values : List String) :
    Scoped known (steps.map (MatchStep.toStmt values)) := by
  induction h generalizing known with
  | done => trivial
  | @element _ _ _ _ _ _ _ _ _ _ cursor locals _ _ opcode _ _ _ hcaptures _ _ ih =>
    rw [List.map_append, scoped_append, MatchStep.flatMap_introduced,
      hcaptures.declares_elementSteps]
    refine ⟨hcaptures.inScope hnull hprevious hnumbers opcode values,
      ih (by simp [hnull]) (by simp) fun name hname => ?_⟩
    rw [List.mem_append, List.mem_cons]
    exact (hcaptures.mem_locals hname).imp (hnumbers name) .inr

end Layout

end Peephole

import Peephole.Compile
import Peephole.Proofs.Binding.Declarations
import Peephole.Proofs.Expansion.Partition
import Peephole.Proofs.Layout.Refusal
import Peephole.Proofs.Replacement.Discriminant

/-!
# Proofs/Expansion/Faults — why a pattern file has no C file

Everything that compiles a tree checks the shape of what it is given, and a tree that was read from
a text has that shape.  So of all faults only few are left for pattern files: two declarations or
two elements of one name, and statements that ask for too much (`StatementFault`).

The latter are found where the compilation of the replacement side got to, for one choice of
instructions (`RuleFault.statement`).
-/

namespace Peephole

/-! ## Statements -/

/-- **What a statement of a rule with the given match elements can be to blame for.**  An expression
refers to what no element captures; a switch names no element, has no cases, is on a wildcard, or
lacks a case. -/
inductive StatementFault (elements : List Node) : Scene.Spot → Fault → Prop where
  | argument {linked : Option Linked} {count : Nat} {statement expression : Node}
    {rest : List Node} {name : String} (hkind : statement.kind = .construct)
    (hargument : expression ∈ statement.children) (hname : name ∈ expression.references)
    (hnot : name ∉ Layout.capturedNames elements) :
    StatementFault elements (.atStatements linked count (statement :: rest)) (.undefined name)
  | condition {linked : Option Linked} {count : Nat} {statement clause expression : Node}
    {clauses body rest : List Node} {name : String} (hkind : statement.kind = .ifChain)
    (hchildren : statement.children = clause :: clauses)
    (hcondition : clause.children = expression :: body) (hname : name ∈ expression.references)
    (hnot : name ∉ Layout.capturedNames elements) :
    StatementFault elements (.atStatements linked count (statement :: rest)) (.undefined name)
  | elseIf {linked : Option Linked} {count : Nat} {clause expression : Node}
    {clauses body rest : List Node} {name : String} (hkind : clause.kind = .ifClause)
    (hcondition : clause.children = expression :: body) (hname : name ∈ expression.references)
    (hnot : name ∉ Layout.capturedNames elements) :
    StatementFault elements (.atClauses linked count (clause :: clauses) rest) (.undefined name)
  | discriminant {linked : Option Linked} {count : Nat} {clauses rest : List Node} {name : String}
    (hnot : name ∉ Node.elementNames elements) :
    StatementFault elements
      (.atStatements linked count (.branch .switch (.leaf .reference name :: clauses) :: rest))
      (.undefined name)
  | noCases {linked : Option Linked} {count : Nat} {rest : List Node} {name : String} :
    StatementFault elements
      (.atStatements linked count (.branch .switch [.leaf .reference name] :: rest))
      (.malformed .switch .noCases)
  | wildcard {linked : Option Linked} {count : Nat} {clauses rest : List Node} {name : String}
    (hmem : .mk .namedElement name [.leaf .wildcard ""] ∈ elements) :
    StatementFault elements
      (.atStatements linked count (.branch .switch (.leaf .reference name :: clauses) :: rest))
      (.malformed .switch (.switchOnWildcard name))
  | unresolved {linked : Option Linked} {count : Nat} {clauses rest : List Node}
    {name instruction : String}
    (hnone : ∀ clause ∈ clauses, clause.text ≠ instruction ∧ clause.text ≠ "default") :
    StatementFault elements
      (.atStatements linked count (.branch .switch (.leaf .reference name :: clauses) :: rest))
      (.unresolvedCase name instruction)

namespace Scene

/-- No case is picked only if none has the label and none is the default. -/
theorem pickCase_eq_none {clauses : List Node} {instruction : String}
    (h : pickCase clauses instruction = none) :
    ∀ clause ∈ clauses, clause.text ≠ instruction ∧ clause.text ≠ "default" := by
  rw [pickCase, Option.or_eq_none_iff, List.find?_eq_none, List.find?_eq_none] at h
  intro clause hmem
  exact ⟨by simpa using h.1 clause hmem, by simpa using h.2 clause hmem⟩

section Rule

variable {rule pattern : Node} {bindings : List Binding} {side : MatchSide} {chosen : List String}
  {fault : Fault} {name : String} (hrule : IsRule rule) (hpattern : rule.matchSide = .ok pattern)
  (hside : MatchSide.ofRule rule bindings = .ok side) (hlength : chosen.length = bindings.length)

include hpattern hside

/-- A name that an expression refers to in vain is not captured by the match side. -/
theorem not_mem_capturedNames {expression : Node} {choice : Choice}
    (h : Scene.Refers ⟨side.layout, bindings, choice⟩ expression name) :
    name ∈ expression.references ∧ name ∉ Layout.capturedNames pattern.children := by
  refine ⟨h.1, fun hmem => ?_⟩
  have hcaptured := h.2
  rw [(Layout.isCaptured_iff hpattern hside name).2 hmem] at hcaptured
  cases hcaptured

include hrule hlength

/-- An element that the replacement finds, and that asks for nothing or for a slot. -/
theorem wildcard_of_named? {placed : Element} (h : side.layout.named? name = some placed) :
    (placed.opcode = none → .mk .namedElement name [.leaf .wildcard ""] ∈ pattern.children) ∧
      ∀ slot, placed.opcode = some (.slot slot) → chosen[slot]?.isSome = true := by
  obtain ⟨numbers, -, hlaid⟩ := Layout.laidOut_of_ofRule hpattern hside
  obtain ⟨index, hplaced⟩ := List.mem_iff_getElem?.1 (List.mem_of_find?_eq_some h)
  have hnamed := List.find?_some h
  rw [Bool.and_eq_true, beq_iff_eq] at hnamed
  have hlt := (List.getElem?_eq_some_iff.1 hplaced).1
  obtain ⟨node, hnode⟩ : ∃ node, pattern.children[index]? = some node :=
    ⟨_, List.getElem?_eq_getElem (hlaid.length_eq ▸ hlt)⟩
  obtain ⟨placed', locals, hplaced', hdisplay, hkind, hopcode, -⟩ := hlaid.exists_element hnode
  obtain rfl := Option.some.inj (hplaced.symm.trans hplaced')
  rw [hnamed.1, eq_comm, decide_eq_true_iff] at hkind
  rw [Node.displayName, hkind] at hdisplay
  have hname := (Except.ok.inj hdisplay).trans hnamed.2
  have hmem := List.mem_of_getElem? hnode
  rcases Layout.elementOpcode_cases (hrule.isElement hpattern node hmem) hopcode with
    ⟨hchildren, hnone⟩ | ⟨body, captures, -, -, hsome⟩
  · constructor
    · intro _
      obtain ⟨kind, text, children⟩ := node
      obtain rfl : kind = .namedElement := hkind
      obtain rfl : text = name := hname
      obtain rfl : children = _ := hchildren
      exact hmem
    · intro slot hslot
      rw [hnone] at hslot
      cases hslot
  · rcases hsome with ⟨slot, hslot, heq⟩ | ⟨-, heq, -⟩
    · refine ⟨fun hnone => ?_, fun other hother => ?_⟩
      · rw [heq] at hnone
        cases hnone
      · rw [heq] at hother
        obtain rfl := Opcode.slot.inj (Option.some.inj hother)
        obtain ⟨hlt, -, -⟩ := List.findIdx?_eq_some_iff_getElem.1 hslot
        simp [hlength, hlt]
    · refine ⟨fun hnone => ?_, fun other hother => ?_⟩
      · rw [heq] at hnone
        cases hnone
      · rw [heq] at hother
        cases hother

/-- **A name stands for no instruction** if it is that of no element, or of a wildcard. -/
theorem instructionOf_eq_error
    (h : Scene.instructionOf ⟨side.layout, bindings, .ofBindings bindings chosen⟩ name
      = .error fault) :
    (fault = .undefined name ∧ name ∉ Node.elementNames pattern.children) ∨
      (fault = .malformed .switch (.switchOnWildcard name) ∧
        .mk .namedElement name [.leaf .wildcard ""] ∈ pattern.children) := by
  have hchosen : ∀ slot, chosen[slot]?.isSome = true → ∃ instruction,
      (Choice.ofBindings bindings chosen).instruction? slot = some instruction := by
    intro slot hsome
    rw [Choice.instruction?_ofBindings hlength]
    exact Option.isSome_iff_exists.1 hsome
  unfold instructionOf at h
  dsimp only at h
  split at h
  case h_1 slot hslot =>
    obtain ⟨hlt, -, -⟩ := List.findIdx?_eq_some_iff_getElem.1 hslot
    obtain ⟨instruction, hinstruction⟩ := hchosen slot (by simp [hlength, hlt])
    rw [hinstruction] at h
    cases h
  case h_2 =>
    split at h
    case h_1 hnone =>
      refine .inl ⟨(Except.error.inj h).symm, fun hmem => ?_⟩
      have hsome := (Layout.isSome_named?_iff hpattern hside name).2 hmem
      rw [hnone] at hsome
      cases hsome
    case h_2 placed hplaced =>
      obtain ⟨hwildcard, hslots⟩ := wildcard_of_named? hrule hpattern hside hlength hplaced
      split at h
      case h_1 hnone => exact .inr ⟨(Except.error.inj h).symm, hwildcard hnone⟩
      case h_2 => cases h
      case h_3 slot hslot =>
        obtain ⟨instruction, hinstruction⟩ := hchosen slot (hslots slot hslot)
        rw [hinstruction] at h
        cases h

/-- **Where a statement of a rule is to blame, it is for one of few reasons.** -/
theorem Blames.statementFault {spot : Spot}
    (hspot : spot.InLanguage (Node.elementNames pattern.children))
    (h : Blames ⟨side.layout, bindings, .ofBindings bindings chosen⟩ spot fault) :
    StatementFault pattern.children spot fault := by
  cases h with
  | argument hkind hargument hname =>
    obtain ⟨hrefers, hnot⟩ := not_mem_capturedNames hpattern hside hname
    exact .argument hkind hargument hrefers hnot
  | condition hkind hchildren hcondition hname =>
    obtain ⟨hrefers, hnot⟩ := not_mem_capturedNames hpattern hside hname
    exact .condition hkind hchildren hcondition hrefers hnot
  | elseIf hkind hcondition hname =>
    obtain ⟨hrefers, hnot⟩ := not_mem_capturedNames hpattern hside hname
    exact .elseIf hkind hcondition hrefers hnot
  | reuse hkind hnone =>
    -- What was read as the copy of an element bears the name of one.
    obtain ⟨hstatement, -⟩ := List.forall_mem_cons.1 hspot
    cases hstatement with
    | @reuse name _ hmem =>
      have hsome := (Layout.isSome_named?_iff hpattern hside name).2 hmem
      rw [show side.layout.named? name = none from hnone] at hsome
      cases hsome
    | _ => cases hkind
  | switch hkind hclause =>
    obtain ⟨hstatement, -⟩ := List.forall_mem_cons.1 hspot
    cases hstatement with
    | @switch name clauses _ hall =>
      rcases eq_or_ne clauses [] with rfl | hne
      · obtain rfl := Except.error.inj hclause
        exact .noCases
      · have hcases : ∀ clause ∈ clauses, clause.kind = .caseClause := by
          intro clause hmem
          obtain ⟨-, -⟩ := hall clause hmem
          rfl
        rw [chosenCase_eq hne hcases] at hclause
        rcases bind_eq_error_iff.1 hclause with hfault | ⟨instruction, -, hfault⟩
        · rcases instructionOf_eq_error hrule hpattern hside hlength hfault with
            ⟨rfl, hnot⟩ | ⟨rfl, hmem⟩
          · exact .discriminant hnot
          · exact .wildcard hmem
        · split at hfault
          case h_1 => cases hfault
          case h_2 hnone =>
            obtain rfl := Except.error.inj hfault
            exact .unresolved (pickCase_eq_none hnone)
    | _ => cases hkind

end Rule

end Scene

theorem StatementFault.root_eq {elements : List Node} {spot : Scene.Spot} {fault : Fault}
    (h : StatementFault elements spot fault) : fault.root = fault := by
  cases h <;> rfl

/-! ## Rules -/

/-- **Why a rule has no more matchers**: two of its elements have one name, or for some choice of
instructions the compilation of its replacement side gets to a statement that is to blame. -/
inductive RuleFault (rule : Node) (table : AliasTable) : Fault → Prop where
  | repeatedName {pattern : Node} {name : String} (hpattern : rule.matchSide = .ok pattern)
    (htwice : 2 ≤ (Node.elementNames pattern.children).count name) :
    RuleFault rule table (.malformed .namedElement (.repeatedName name))
  | statement {pattern node : Node} {plan : Expansion.Plan} {chosen : List String}
    {spot : Scene.Spot} {fault : Fault} (hpattern : rule.matchSide = .ok pattern)
    (hnode : rule.child? 1 = some node) (hplan : (Expansion.plan rule table).result = .ok plan)
    (hchosen : chosen ∈ product plan.candidates)
    (hreaches : Scene.Reaches ⟨plan.side.layout, plan.bindings, .ofBindings plan.bindings chosen⟩
      (.start node) spot)
    (hfault : StatementFault pattern.children spot fault) : RuleFault rule table fault

/-- The names that matchers get are C identifiers. -/
theorem isCIdentifier_nameTemplate {rule : Node} {bindings : List Binding} {chosen : List String}
    (hname : IsIdentifier rule.text) (hlength : chosen.length = bindings.length)
    (hchosen : ∀ instruction ∈ chosen, WordChars instruction) :
    isCIdentifier ((Matcher.nameTemplate rule bindings).instantiate chosen) = true := by
  have hwords : WordChars (String.join (chosen.map ("_" ++ ·))) := by
    intro c hc
    rw [String.toList_join, List.flatMap_map, List.mem_flatMap] at hc
    obtain ⟨instruction, hmem, hc⟩ := hc
    rw [String.toList_append, List.mem_append] at hc
    rcases hc with hc | hc
    · obtain rfl := List.mem_singleton.1 hc
      rfl
    · exact hchosen instruction hmem c hc
  obtain ⟨⟨first, rest, htext, hfirst⟩, hchars, -⟩ := hname
  rw [htext, List.forall_mem_cons] at hchars
  rw [Matcher.instantiate_nameTemplate hlength, isCIdentifier, String.toList_append, htext]
  simp only [List.cons_append, List.all_append, hfirst, Bool.true_or, Bool.true_and,
    Bool.and_eq_true, List.all_eq_true]
  exact ⟨hchars.2, hwords⟩

section Rule

variable {tree rule : Node} {table : AliasTable} {fault : Fault} (htree : IsProgram tree)
  (hrule : rule ∈ tree.rules) (htable : (AliasTable.build tree).result = .ok table)

include htree hrule

/-- **A rule without a plan has a repeated name.** -/
theorem ruleFault_of_plan (h : (Expansion.plan rule table).result = .error fault) :
    RuleFault rule table fault ∧ fault.root = fault := by
  have hisRule := isRule_of_mem_rules htree hrule
  obtain ⟨bindings, aliases, hresolve⟩ := Binding.exists_resolve hisRule table
  obtain ⟨pattern, hpattern⟩ := Binding.matchSide_of_resolve hresolve
  obtain ⟨sets, hsets⟩ := Expansion.exists_candidates hresolve
  rw [Expansion.result_plan, hresolve] at h
  change Expansion.candidates aliases bindings >>= _ = _ at h
  rw [hsets] at h
  change MatchSide.ofRule rule bindings >>= _ = _ at h
  rcases bind_eq_error_iff.1 h with h | ⟨side, -, h⟩
  · obtain ⟨name, rfl, htwice⟩ := Layout.repeatedName_of_ofRule hisRule hpattern hresolve h
    exact ⟨.repeatedName hpattern htwice, rfl⟩
  · cases h

include htable

/-- **A choice without a matcher has a statement to blame.** -/
theorem ruleFault_of_matcher {plan : Expansion.Plan} {chosen : List String}
    (hplan : (Expansion.plan rule table).result = .ok plan)
    (hchosen : chosen ∈ product plan.candidates) (h : plan.matcher rule chosen = .error fault) :
    RuleFault rule table fault.root := by
  have hisRule := isRule_of_mem_rules htree hrule
  obtain ⟨aliases, hresolve, hsets, hside⟩ := Expansion.exists_of_plan hplan
  obtain ⟨pattern, hpattern⟩ := Binding.matchSide_of_resolve hresolve
  have hlength := length_of_mem_product hsets hchosen
  have haliases := listsIdentifiers_of_resolve htree hrule hpattern htable hresolve
  have hwords := wordChars_of_mem_product haliases hsets hchosen
  obtain ⟨cause, hcause, rfl⟩ := Expansion.matcher_eq_error_iff.1 h
  obtain ⟨node, hnode, hname⟩ : ∃ node, rule.child? 1 = some node ∧ IsIdentifier rule.text := by
    obtain ⟨hname, -, -, -⟩ := hisRule
    exact ⟨_, rfl, hname⟩
  obtain ⟨hkind, hlanguage⟩ := Scene.inLanguage_of_isRule hisRule hpattern hnode
  have hcompiles : Scene.replacement ⟨plan.side.layout, plan.bindings,
      .ofBindings plan.bindings chosen⟩ node = .error cause := by
    unfold Matcher.ofChoice at hcause
    dsimp only at hcause
    rw [Choice.instructions_ofBindings hlength,
      isCIdentifier_nameTemplate hname hlength hwords, hnode] at hcause
    rcases bind_eq_error_iff.1 hcause with hcause | ⟨body, -, hcause⟩
    · exact hcause
    · cases hcause
  rw [Scene.replacement, if_pos hkind] at hcompiles
  rcases bind_eq_error_iff.1 hcompiles with hfails | ⟨code, -, hdone⟩
  · obtain ⟨spot, hreaches, hspot, hblames⟩ :=
      @Scene.exists_reaches_of_fails _ (.start node) cause _ hlanguage hfails
    have hstatement := hblames.statementFault hisRule hpattern hside hlength hspot
    have hroot := hstatement.root_eq
    rw [Fault.root, hroot]
    exact .statement hpattern hnode hplan hchosen hreaches hstatement
  · cases hdone

/-- **A rule is left without further matchers for one of these reasons.** -/
theorem ruleFault_of_ofRule (h : (Expansion.ofRule rule table).fault = some fault) :
    RuleFault rule table fault.root := by
  cases hplan : (Expansion.plan rule table).result with
  | error cause =>
    rw [Expansion.ofRule] at h
    dsimp only at h
    rw [hplan] at h
    obtain rfl := Option.some.inj h
    obtain ⟨hcause, hroot⟩ := ruleFault_of_plan htree hrule hplan
    rw [Fault.root, hroot]
    exact hcause
  | ok plan =>
    have hwalk := Expansion.ofRule_eq_each hplan
    rcases Walk.each_single (plan.matcher rule) (visited plan.candidates) with
      ⟨matchers, -, heach⟩ | ⟨before, failing, behind, matchers, cause, hvisited, -, hfails, heach⟩
    · rw [heach, Walk.mk.injEq, h] at hwalk
      cases hwalk.2
    · rw [heach, Walk.mk.injEq, h] at hwalk
      obtain rfl := Option.some.inj hwalk.2
      refine ruleFault_of_matcher htree hrule htable hplan (mem_visited.1 ?_).2 hfails
      rw [hvisited]
      exact List.mem_append_right _ List.mem_cons_self

end Rule

/-! ## Files -/

/-- **Why a pattern file has no C file**: an alias is declared twice, or a rule has a fault. -/
inductive FileFault (tree : Node) : Fault → Prop where
  | duplicate {name : String} (htwice : 2 ≤ tree.declaredNames.count name) :
    FileFault tree (.duplicateDeclaration name)
  | rule {table : AliasTable} {rule : Node} {fault : Fault}
    (htable : (AliasTable.build tree).result = .ok table) (hrule : rule ∈ tree.rules)
    (hfault : RuleFault rule table fault) : FileFault tree fault

/-- Emission fails at a rule whose expansion has that fault. -/
theorem GeneratedFile.exists_fault_of_emit {table : AliasTable} {rules : List Node}
    {emission : Emission} {fault : Fault}
    (h : (emit table emission rules).result = .error fault) :
    ∃ rule ∈ rules, (Expansion.ofRule rule table).fault = some fault := by
  induction rules generalizing emission with
  | nil => cases h
  | cons rule rules ih =>
    rw [emit, Logged.result_bind] at h
    rcases bind_eq_error_iff.1 h with h | ⟨count, -, h⟩
    · refine ⟨rule, List.mem_cons_self, ?_⟩
      rw [expandRule, Expansion.count] at h
      cases hfault : (Expansion.ofRule rule table).fault with
      | none => rw [hfault] at h; cases h
      | some cause => rw [hfault] at h; rw [Except.error.inj h]
    · obtain ⟨other, hother, hfault⟩ := ih h
      exact ⟨other, List.mem_cons_of_mem _ hother, hfault⟩

/-- **A pattern file that was read is refused for one of these reasons, and for no other**, whatever
the configuration and the names of the file. -/
theorem fileFault_of_compileText {config : Config} {source stem label : String} {tree : Node}
    {error : CompileError} (hparse : parse source = .ok tree)
    (h : (compileText config source stem label).result = .error error) :
    ∃ fault, error = .fault label fault ∧ FileFault tree fault.root := by
  have htree := isProgram_of_parse hparse
  obtain ⟨fault, rfl, hfile⟩ : ∃ fault, error = .fault label fault ∧
      (GeneratedFile.ofProgram config tree stem).result = .error fault := by
    delta compileText at h
    rw [hparse] at h
    dsimp only at h
    rw [Logged.result_mapError] at h
    cases hfile : (GeneratedFile.ofProgram config tree stem).result with
    | ok file => rw [hfile] at h; cases h
    | error fault => rw [hfile] at h; exact ⟨fault, (Except.error.inj h).symm, rfl⟩
  refine ⟨fault, rfl, ?_⟩
  rw [GeneratedFile.ofProgram, Logged.result_bind] at hfile
  rcases bind_eq_error_iff.1 hfile with hbuild | ⟨table, htable, hfile⟩
  · obtain ⟨name, rfl, htwice⟩ := AliasTable.duplicate_of_build htree hbuild
    exact .duplicate htwice
  · rw [Logged.result_bind] at hfile
    rcases bind_eq_error_iff.1 hfile with hemit | ⟨emission, -, hfile⟩
    · obtain ⟨rule, hrule, hfault⟩ := GeneratedFile.exists_fault_of_emit hemit
      exact .rule htable hrule (ruleFault_of_ofRule htree hrule htable hfault)
    · cases hfile

namespace Uncaptured

/-- A rule that stores what it does not capture. -/
def source : String :=
  "pattern p: x: iload(a) --> \x7b if (a) \x7b x; \x7d else \x7b istore(b); \x7d \x7d"

/-- What the file is read as. -/
def tree : Node :=
  .branch .program
    [.mk .rule "p"
      [.branch .pattern [.mk .namedElement "x" [.leaf .instruction "iload", .leaf .reference "a"]],
        .branch .replacement
          [.branch .ifChain
            [.branch .ifClause [.leaf .reference "a", .leaf .reuse "x"],
              .branch .elseClause [.mk .construct "istore" [.leaf .reference "b"]]]]]]

theorem parse_source : parse source = .ok tree := eq_ok_of_toOption (by decide +kernel)

theorem exists_error :
    ∃ error, (compileText .default source "s" "f").result = .error error := by
  cases hresult : (compileText .default source "s" "f").result with
  | error error => exact ⟨error, rfl⟩
  | ok file =>
    have hnone : (compileText .default source "s" "f").result.toOption.isSome = false := by
      decide +kernel
    rw [hresult] at hnone
    cases hnone

end Uncaptured

/-- The file fails for a variable that its rule does not capture. -/
theorem fileFault_of_compileText_uncaptured : ∃ fault,
    (compileText .default Uncaptured.source "s" "f").result = .error (.fault "f" fault) ∧
      FileFault Uncaptured.tree fault.root := by
  obtain ⟨error, herror⟩ := Uncaptured.exists_error
  obtain ⟨fault, rfl, hfault⟩ := fileFault_of_compileText Uncaptured.parse_source herror
  exact ⟨fault, herror, hfault⟩

end Peephole

import Peephole.Proofs.Expansion.Emission
import Peephole.Proofs.Layout.Acceptance
import Peephole.Proofs.Layout.LaidOut
import Peephole.Proofs.Replacement.Reaches

/-!
# Proofs/Replacement/Discriminant — which element decides a switch

A switch names an element and is decided by the instruction there.  The name is looked up among the
bindings first, and bindings of elements without a name go by `unnamed` there.  Of all names, only
this one can be caught by an element that does not bear it (`Catches`): a switch on any other name
is decided by the element of that name, and refused if there is none (`switch_decided`).
-/

namespace Peephole

theorem Choice.instruction?_ofBindings {bindings : List Binding} {chosen : List String}
    (h : chosen.length = bindings.length) (slot : Nat) :
    (ofBindings bindings chosen).instruction? slot = chosen[slot]? := by
  rw [instruction?, ← List.getElem?_map]
  exact congrArg (·[slot]?) (instructions_ofBindings h)

/-- A bound element without a name catches a name. -/
def Catches (elements : List Node) (bindings : List Binding) (name : String) : Prop :=
  name = "unnamed" ∧ ∃ binding ∈ bindings, ∃ element, elements[binding.position]? = some element ∧
    element.kind = .unnamedElement

namespace Scene

section Lookup

variable {table aliases : AliasTable} {used : Nat} {elements : List Node} {bindings : List Binding}
  {layout : Layout} {names chosen : List String} {steps : List MatchStep}
  {numbers after : String → Option Nat} {name : String}

/-- A name that a binding goes by stands for what is chosen for that binding. -/
theorem instructionOf_of_slotNamed? (layout : Layout)
    (hpairwise : bindings.Pairwise (·.position < ·.position))
    (hlength : chosen.length = bindings.length) {slot : Nat}
    (hslot : Binding.slotNamed? bindings name = some slot) :
    ∃ binding instruction, bindings[slot]? = some binding ∧ binding.displayName = name ∧
      Binding.fixed? bindings chosen binding.position = some instruction ∧
      Scene.instructionOf ⟨layout, bindings, .ofBindings bindings chosen⟩ name
        = .ok instruction := by
  obtain ⟨hlt, hname, -⟩ := List.findIdx?_eq_some_iff_getElem.1 hslot
  have hbinding := List.getElem?_eq_getElem hlt
  obtain ⟨instruction, hchosen⟩ : ∃ instruction, chosen[slot]? = some instruction :=
    ⟨_, List.getElem?_eq_getElem (hlength ▸ hlt)⟩
  refine ⟨bindings[slot], instruction, hbinding, by simpa using hname, ?_, ?_⟩
  · rw [Binding.fixed?_eq, Binding.slotAt?_of_getElem? hpairwise hbinding]
    exact hchosen
  · unfold instructionOf
    simp only [hslot, Choice.instruction?_ofBindings hlength, hchosen]

/-- A name that a binding goes by is that of its element, unless it catches the name. -/
theorem position_of_displayName
    (hresolves : Binding.Resolves 0 table used elements bindings aliases)
    {binding : Binding} (hmem : binding ∈ bindings) (hname : binding.displayName = name)
    (hcatches : ¬ Catches elements bindings name) :
    ∃ element, elements[binding.position]? = some element ∧ element.kind = .namedElement ∧
      element.text = name := by
  obtain ⟨index, element, -, hposition, helement, hdisplay, -, -⟩ :=
    hresolves.exists_body binding hmem
  rw [Nat.zero_add] at hposition
  rw [← hposition] at helement
  refine ⟨element, helement, ?_⟩
  unfold Node.displayName at hdisplay
  split at hdisplay
  case h_1 hkind => exact ⟨hkind, (Except.ok.inj hdisplay).trans hname⟩
  case h_2 hkind =>
    refine absurd ⟨?_, binding, hmem, element, helement, hkind⟩ hcatches
    rw [← hname, ← Except.ok.inj hdisplay]
  case h_3 => cases hdisplay

variable (hresolves : Binding.Resolves 0 table used elements bindings aliases)
  (hlaid : Layout.LaidOut names bindings 0 none [] numbers elements steps layout.elements after)

include hresolves hlaid

/-- **A name stands for the instruction of the element that bears it**, unless another catches
it. -/
theorem instructionOf_of_named (helements : ∀ element ∈ elements, IsElement element)
    (hlength : chosen.length = bindings.length) (hcatches : ¬ Catches elements bindings name)
    {position : Nat} {element body : Node} (hat : elements[position]? = some element)
    (hkind : element.kind = .namedElement) (hname : element.text = name)
    (hbody : element.elementInstruction = .ok body) (hasks : body.kind ≠ .wildcard) :
    Scene.instructionOf ⟨layout, bindings, .ofBindings bindings chosen⟩ name
      = .ok ((Binding.fixed? bindings chosen position).getD body.text) := by
  cases hslot : Binding.slotNamed? bindings name with
  | some slot =>
    obtain ⟨binding, instruction, hbinding, hdisplay, hfixed, hinstruction⟩ :=
      instructionOf_of_slotNamed? layout hresolves.positions.2 hlength hslot
    -- No other element bears the name, so the binding is that of the element.
    obtain ⟨other, hother, hotherKind, hotherName⟩ :=
      position_of_displayName hresolves (List.mem_of_getElem? hbinding) hdisplay hcatches
    have hposition := hlaid.index_eq hother hat hotherKind hkind (hotherName.trans hname.symm)
    rw [hposition] at hfixed
    rw [hinstruction, hfixed, Option.getD_some]
  | none =>
    have hunbound : Binding.slotAt? bindings position = none := by
      rw [← Option.not_isSome_iff_eq_none, Binding.isSome_slotAt?_iff]
      rintro ⟨binding, hmem, rfl⟩
      obtain ⟨index, other, -, hposition, hother, hdisplay, -, -⟩ :=
        hresolves.exists_body binding hmem
      rw [Nat.zero_add] at hposition
      obtain rfl := Option.some.inj (hat.symm.trans (hposition ▸ hother))
      rw [Node.displayName, hkind] at hdisplay
      have hnot := List.findIdx?_eq_none_iff.1 hslot binding hmem
      rw [← Except.ok.inj hdisplay, hname] at hnot
      simp at hnot
    obtain ⟨placed, -, opcode, hplaced, hopcode, -, heq⟩ :=
      hlaid.exists_opcode hat (helements element (List.mem_of_getElem? hat)) hbody hasks
    have hfind : layout.named? name = some placed := by
      rw [← hplaced, ← hlaid.find?_eq_getElem? hat hkind, hname]
      rfl
    rw [Nat.zero_add, hunbound] at heq
    unfold instructionOf
    simp only [hslot, hfind, hopcode, heq, Binding.fixed?_eq, hunbound]
    rfl

/-- **A name that no element bears stands for nothing**, unless an element catches it. -/
theorem instructionOf_of_unnamed (hcatches : ¬ Catches elements bindings name)
    (hname : name ∉ Node.elementNames elements) (choice : Choice) :
    Scene.instructionOf ⟨layout, bindings, choice⟩ name = .error (.undefined name) := by
  have hslot : Binding.slotNamed? bindings name = none := by
    refine List.findIdx?_eq_none_iff.2 fun binding hmem => ?_
    by_contra hdisplay
    rw [Bool.not_eq_false, beq_iff_eq] at hdisplay
    obtain ⟨element, hat, hkind, rfl⟩ :=
      position_of_displayName hresolves hmem hdisplay hcatches
    refine hname (List.mem_map.2 ⟨element, List.mem_filter.2 ⟨List.mem_of_getElem? hat, ?_⟩, rfl⟩)
    simpa using hkind
  have hfind : layout.named? name = none := by
    rw [← Option.not_isSome_iff_eq_none]
    exact fun hsome => hname ((hlaid.isSome_find?_iff name).1 hsome)
  unfold instructionOf
  simp only [hslot, hfind]

omit hlaid

/-- **A name that is caught stands for the instruction of a bound element**: the first that goes by
it. -/
theorem instructionOf_of_catches (hlength : chosen.length = bindings.length)
    (hcatches : Catches elements bindings name) :
    ∃ slot binding instruction, Binding.slotNamed? bindings name = some slot ∧
      bindings[slot]? = some binding ∧
      Binding.fixed? bindings chosen binding.position = some instruction ∧
      Scene.instructionOf ⟨layout, bindings, .ofBindings bindings chosen⟩ name
        = .ok instruction := by
  obtain ⟨rfl, binding, hmem, element, hat, hkind⟩ := hcatches
  obtain ⟨index, other, -, hposition, hother, hdisplay, -, -⟩ := hresolves.exists_body binding hmem
  rw [Nat.zero_add] at hposition
  obtain rfl := Option.some.inj (hat.symm.trans (hposition ▸ hother))
  rw [Node.displayName, hkind] at hdisplay
  have hsome : (Binding.slotNamed? bindings "unnamed").isSome = true := by
    rw [Binding.slotNamed?, List.findIdx?_isSome, List.any_eq_true]
    exact ⟨binding, hmem, by rw [← Except.ok.inj hdisplay]; rfl⟩
  obtain ⟨slot, hslot⟩ := Option.isSome_iff_exists.1 hsome
  obtain ⟨first, instruction, hfirst, -, hfixed, hinstruction⟩ :=
    instructionOf_of_slotNamed? layout hresolves.positions.2 hlength hslot
  exact ⟨slot, first, instruction, hslot, hfirst, hfixed, hinstruction⟩

end Lookup

/-! ## Switches -/

/-- A switch looks up its instruction and picks the case of it. -/
theorem chosenCase_eq {scene : Scene} {name : String} {clauses : List Node} (hne : clauses ≠ [])
    (hall : ∀ clause ∈ clauses, clause.kind = .caseClause) :
    scene.chosenCase (.branch .switch (.leaf .reference name :: clauses)) =
      scene.instructionOf name >>= fun instruction =>
        match pickCase clauses instruction with
        | some clause => .ok clause
        | none => .error (.unresolvedCase name instruction) := by
  have hcases : clauses.find? (fun clause => !decide (clause.kind = .caseClause)) = none :=
    List.find?_eq_none.2 fun clause hmem => by simp [hall clause hmem]
  cases hinstruction : scene.instructionOf name with
  | error fault => simp [chosenCase, hne, hcases, hinstruction, bind, Except.bind]
  | ok instruction =>
    cases hpick : pickCase clauses instruction with
    | none => simp [chosenCase, hne, hcases, hinstruction, hpick, bind, Except.bind]
    | some clause => simp [chosenCase, hne, hcases, hinstruction, hpick, bind, Except.bind]

/-- **An instruction decides a switch**: the compilation goes on with the case for it, and if there
is none the replacement side is refused. -/
structure Decides (scene : Scene) (node : Node) (linked : Option Linked) (count : Nat)
    (name : String) (clauses rest : List Node) (instruction : String) : Prop where
  picked : ∀ clause, pickCase clauses instruction = some clause →
    scene.compile linked count (.branch .switch (.leaf .reference name :: clauses) :: rest)
      = scene.compile linked count (clause.children ++ rest)
  refused : pickCase clauses instruction = none →
    scene.replacement node = .error (.unresolvedCase name instruction)

section Reached

variable {scene : Scene} {elements : List String} {node : Node} {linked : Option Linked}
  {count : Nat} {name : String} {clauses rest : List Node}
  (hkind : node.kind = .replacement) (hlanguage : (Spot.start node).InLanguage elements)
  (hreaches : scene.Reaches (.start node)
    (.atStatements linked count (.branch .switch (.leaf .reference name :: clauses) :: rest)))
  (hne : clauses ≠ [])

include hlanguage hreaches

/-- All clauses of a switch in the grammar are cases. -/
theorem kind_of_mem_clauses : ∀ clause ∈ clauses, clause.kind = .caseClause := by
  obtain ⟨hswitch, -⟩ := List.forall_mem_cons.1 (hreaches.inLanguage hlanguage)
  cases hswitch with
  | switch _ hall =>
    intro clause hmem
    obtain ⟨-, -⟩ := hall clause hmem
    rfl

include hkind hne

/-- Once the instruction is known, it decides which clause is compiled. -/
theorem decides_of_instructionOf {instruction : String}
    (h : scene.instructionOf name = .ok instruction) :
    Decides scene node linked count name clauses rest instruction := by
  have hcase := @chosenCase_eq scene name clauses hne (kind_of_mem_clauses hlanguage hreaches)
  rw [h] at hcase
  constructor
  · intro clause hpick
    rw [compile_switch rfl, hcase]
    simp only [bind, Except.bind, hpick]
  · intro hpick
    refine replacement_eq_error hkind hreaches ?_
    rw [Spot.Fails, compile_switch rfl, hcase]
    simp only [bind, Except.bind, hpick]

theorem refused_of_instructionOf {fault : Fault} (h : scene.instructionOf name = .error fault) :
    scene.replacement node = .error fault := by
  refine replacement_eq_error hkind hreaches ?_
  rw [Spot.Fails, compile_switch rfl, chosenCase_eq hne (kind_of_mem_clauses hlanguage hreaches), h]
  rfl

end Reached

/-- **Which element decides a switch.**  Where no element catches the name, it is the element of
that name, by the instruction fixed at its position or the opcode it asks for; and a switch on a
name that no element has is refused.  A name that is caught is decided by the first bound element
that goes by it. -/
theorem switch_decided {source : String} {tree rule pattern node : Node}
    {table aliases : AliasTable} {bindings : List Binding} {side : MatchSide}
    {chosen : List String} {linked : Option Linked} {count : Nat} {name : String}
    {clauses rest : List Node} (hparse : parse source = .ok tree) (hrule : rule ∈ tree.rules)
    (hpattern : rule.matchSide = .ok pattern) (hnode : rule.child? 1 = some node)
    (hresolve : (Binding.resolve rule table).result = .ok (bindings, aliases))
    (hside : MatchSide.ofRule rule bindings = .ok side) (hlength : chosen.length = bindings.length)
    (hreaches : Reaches ⟨side.layout, bindings, .ofBindings bindings chosen⟩ (.start node)
      (.atStatements linked count (.branch .switch (.leaf .reference name :: clauses) :: rest)))
    (hne : clauses ≠ []) :
    (¬ Catches pattern.children bindings name →
      (∀ position element body, pattern.children[position]? = some element →
        element.kind = .namedElement → element.text = name →
        element.elementInstruction = .ok body → body.kind ≠ .wildcard →
        Decides ⟨side.layout, bindings, .ofBindings bindings chosen⟩ node linked count name clauses
          rest ((Binding.fixed? bindings chosen position).getD body.text)) ∧
      (name ∉ Node.elementNames pattern.children →
        replacement ⟨side.layout, bindings, .ofBindings bindings chosen⟩ node
          = .error (.undefined name))) ∧
    (Catches pattern.children bindings name →
      ∃ slot binding instruction, Binding.slotNamed? bindings name = some slot ∧
        bindings[slot]? = some binding ∧
        Binding.fixed? bindings chosen binding.position = some instruction ∧
        Decides ⟨side.layout, bindings, .ofBindings bindings chosen⟩ node linked count name clauses
          rest instruction) := by
  have hisRule := isRule_of_mem_rules (isProgram_of_parse hparse) hrule
  obtain ⟨hkind, hlanguage⟩ := inLanguage_of_isRule hisRule hpattern hnode
  have hresolves := Binding.resolves_of_resolve hpattern hresolve
  obtain ⟨numbers, -, hlaid⟩ := Layout.laidOut_of_ofRule hpattern hside
  refine ⟨fun hcatches => ⟨?_, fun hname => ?_⟩, fun hcatches => ?_⟩
  · intro position element body hat helement hname hbody hasks
    exact decides_of_instructionOf hkind hlanguage hreaches hne
      (instructionOf_of_named hresolves hlaid (hisRule.isElement hpattern) hlength hcatches hat
        helement hname hbody hasks)
  · exact refused_of_instructionOf hkind hlanguage hreaches hne
      (instructionOf_of_unnamed hresolves hlaid hcatches hname _)
  · obtain ⟨slot, binding, instruction, hslot, hbinding, hfixed, hinstruction⟩ :=
      instructionOf_of_catches hresolves hlength hcatches
    exact ⟨slot, binding, instruction, hslot, hbinding, hfixed,
      decides_of_instructionOf hkind hlanguage hreaches hne hinstruction⟩

namespace Loads

/-- The alias of the file. -/
def declaration : Node :=
  .branch .declaration
    [.leaf .identifier "load",
      .branch .instructionSet [.leaf .instruction "iload", .leaf .instruction "aload"]]

/-- What the file declares. -/
def table : AliasTable := AliasTable.empty.insert "load" ["iload", "aload"]

/-- A load without a name, then another element. -/
def elements (others : List Node) : List Node :=
  .branch .unnamedElement [.leaf .instruction "load"] :: others

/-- A clause for each instruction that an element can stand for. -/
def clauses : List Node :=
  [.mk .caseClause "nop" [.leaf .construct "n"], .mk .caseClause "iload" [.leaf .construct "i"],
    .mk .caseClause "aload" [.leaf .construct "a"]]

/-- A switch on an element over these clauses. -/
def replacement (name : String) : Node :=
  .branch .replacement [.branch .switch (.leaf .reference name :: clauses)]

/-- A rule that switches on a name. -/
def rule (others : List Node) (name : String) : Node :=
  .mk .rule "p" [.branch .pattern (elements others), replacement name]

/-- The file with the alias and the rule. -/
def tree (others : List Node) (name : String) : Node :=
  .branch .program [declaration, rule others name]

/-- The text of such a rule: its other elements, and the name. -/
def source (others name : String) : String :=
  "set load = \x7b iload, aload \x7d; pattern p: load " ++ others ++ " --> \x7b switch (" ++ name ++
    ") \x7b case nop: \x7b n; \x7d case iload: \x7b i; \x7d case aload: \x7b a; \x7d \x7d \x7d"

/-- Another load, called `x`. -/
def named : Node := .mk .namedElement "x" [.leaf .instruction "load"]

/-- A `nop`, called `unnamed`. -/
def homonym : Node := .mk .namedElement "unnamed" [.leaf .instruction "nop"]

/-- The unnamed element and `x`, both bound to the alias. -/
def bindings : List Binding := [⟨"unnamed", "load", 0⟩, ⟨"x", "load", 1⟩]

theorem resolve_named :
    (Binding.resolve (rule [named] "x") table).result = .ok (bindings, table) :=
  rfl

theorem parse_named : parse (source "x: load" "x") = .ok (tree [named] "x") :=
  eq_ok_of_toOption (by decide +kernel)

theorem parse_nameless : parse (source "" "unnamed") = .ok (tree [] "unnamed") :=
  eq_ok_of_toOption (by decide +kernel)

theorem parse_homonym : parse (source "unnamed: nop" "unnamed") = .ok (tree [homonym] "unnamed") :=
  eq_ok_of_toOption (by decide +kernel)

end Loads

/-- A switch on the second load goes by what is chosen for it, and not for the first. -/
theorem switch_decided_second :
    ∃ side, MatchSide.ofRule (Loads.rule [Loads.named] "x") Loads.bindings = .ok side ∧
      compile ⟨side.layout, Loads.bindings, .ofBindings Loads.bindings ["iload", "aload"]⟩ none 0
          (Loads.replacement "x").children
        = compile ⟨side.layout, Loads.bindings, .ofBindings Loads.bindings ["iload", "aload"]⟩ none
          0 [.leaf .construct "a"] := by
  obtain ⟨side, hside⟩ : ∃ side, MatchSide.ofRule (Loads.rule [Loads.named] "x") Loads.bindings
      = .ok side := ⟨_, rfl⟩
  have hlength : ["iload", "aload"].length = Loads.bindings.length := rfl
  have hdecided := switch_decided Loads.parse_named (List.mem_singleton.2 rfl) rfl rfl
    Loads.resolve_named hside hlength .refl (by decide)
  have hnamed := (hdecided.1 fun hcatches => absurd hcatches.1 (by decide)).1 1 _ _ rfl rfl rfl rfl
    (by decide)
  exact ⟨side, hside, hnamed.picked _ rfl⟩

/-- **An element without a name can decide a switch.**  No element is called `unnamed`, and yet the
switch has its code; and where a `nop` is, the switch goes by the load before it. -/
theorem switch_on_nameless :
    (parse (Loads.source "" "unnamed") = .ok (Loads.tree [] "unnamed") ∧
      "unnamed" ∉ Node.elementNames (Loads.elements []) ∧
      ∃ bindings side, (Binding.resolve (Loads.rule [] "unnamed") Loads.table).result
          = .ok (bindings, Loads.table) ∧
        MatchSide.ofRule (Loads.rule [] "unnamed") bindings = .ok side ∧
        (replacement ⟨side.layout, bindings, .ofBindings bindings ["iload"]⟩
          (Loads.replacement "unnamed")).toOption.isSome = true) ∧
    parse (Loads.source "unnamed: nop" "unnamed") = .ok (Loads.tree [Loads.homonym] "unnamed") ∧
      (Loads.elements [Loads.homonym])[1]? = some Loads.homonym ∧
      ∃ bindings side, (Binding.resolve (Loads.rule [Loads.homonym] "unnamed") Loads.table).result
          = .ok (bindings, Loads.table) ∧
        MatchSide.ofRule (Loads.rule [Loads.homonym] "unnamed") bindings = .ok side ∧
        ((replacement ⟨side.layout, bindings, .ofBindings bindings ["iload"]⟩
          (Loads.replacement "unnamed")).toOption.map (Body.text 0))
          = some ("CODE *statement_1 = makeCODEi(NULL);\nstatement_1->next = next(instr_unnamed);\n"
            ++ "return replace(c, 2, statement_1);\n") :=
  ⟨⟨Loads.parse_nameless, by decide, _, _, rfl, rfl, by decide +kernel⟩,
    Loads.parse_homonym, rfl, _, _, rfl, rfl, by decide +kernel⟩

end Scene

end Peephole

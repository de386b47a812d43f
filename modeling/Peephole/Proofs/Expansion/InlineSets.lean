import Peephole.Proofs.Binding.Ranges
import Peephole.Proofs.Expansion.RuleByRule
import Peephole.Proofs.Replacement.Congruence

/-!
# Proofs/Expansion/InlineSets — a set written in a match side means what a declared one does

An element that lists a set and one that names an alias of that set range over the same
instructions.  They differ in the aliases of the bindings, those of later sets included, and these
are seen nowhere: an expansion depends on the slots of its bindings and on what they range over
(`Expansion.same_of_ranges`).
-/

namespace Peephole

/-! ## Trees with another child -/

namespace Node

/-- The node with another child at an index. -/
def withChild (node : Node) (index : Nat) (child : Node) : Node :=
  .mk node.kind node.text (node.children.set index child)

@[simp] theorem kind_withChild (node : Node) (index : Nat) (child : Node) :
    (node.withChild index child).kind = node.kind := rfl

/-- What stands before and behind a child stays where it is. -/
theorem exists_of_child? {node child : Node} {index : Nat} (h : node.child? index = some child) :
    ∃ left right, left.length = index ∧ node.children = left ++ child :: right ∧
      ∀ other, (node.withChild index other).children = left ++ other :: right := by
  obtain ⟨hlt, hchild⟩ := List.getElem?_eq_some_iff.1 h
  refine ⟨node.children.take index, node.children.drop (index + 1), ?_, ?_, fun other => ?_⟩
  · exact List.length_take_of_le (Nat.le_of_lt hlt)
  · rw [← hchild, List.cons_getElem_drop_succ, List.take_append_drop]
  · exact List.set_eq_take_append_cons_drop.trans (if_pos hlt)

theorem child?_withChild {node child other : Node} {index : Nat}
    (h : node.child? index = some child) :
    (node.withChild index other).child? index = some other :=
  List.getElem?_set_self (List.getElem?_eq_some_iff.1 h).1

theorem elementInstruction_of_child? {element body : Node} (h : element.child? 0 = some body) :
    element.elementInstruction = .ok body := by
  obtain ⟨kind, text, _ | ⟨first, captures⟩⟩ := element
  · cases h
  · exact congrArg Except.ok (Option.some.inj h)

theorem drop_childTexts_withChild (element body : Node) :
    (element.withChild 0 body).childTexts.drop 1 = element.childTexts.drop 1 := by
  obtain ⟨kind, text, _ | ⟨first, captures⟩⟩ := element <;> rfl

/-- The first child of a rule is its match side, if it is one at all. -/
theorem matchSide_of_child? {rule pattern : Node} (h : rule.child? 0 = some pattern) :
    rule.matchSide
      = if pattern.kind = .pattern then .ok pattern
        else .error (.malformed .rule .missingPattern) := by
  obtain ⟨kind, text, _ | ⟨first, rest⟩⟩ := rule
  · cases h
  · obtain rfl : first = pattern := Option.some.inj h
    rfl

/-- The rule with a name for the instruction of its match element at an index. -/
def naming (rule pattern element : Node) (index : Nat) (name : String) : Node :=
  rule.withChild 0 (pattern.withChild index (element.withChild 0 (.leaf .instruction name)))

/-- The declaration of a set under a name. -/
def aliasing (name : String) (set : Node) : Node :=
  .branch .declaration [.leaf .identifier name, set]

/-- The program with one more declaration, behind those it opens with. -/
def declaring (program declaration : Node) : Node :=
  .mk program.kind program.text (AliasTable.leadingDeclarations program ++
    declaration :: program.children.dropWhile (·.kind = .declaration))

end Node

/-! ## Match sides -/

namespace Layout

variable {bindings others : List Binding}

/-- The opcode of an element is found by position alone, so equal slots make equal opcodes. -/
theorem elementOpcode_eq_of_slots
    (h : ∀ position, Binding.slotAt? bindings position = Binding.slotAt? others position) :
    elementOpcode bindings = elementOpcode others := by
  funext position element hasCaptures
  unfold elementOpcode
  rw [h]

/-- A match side is laid out alike over bindings with the same slots. -/
theorem Draft.addAll_eq_of_slots
    (h : ∀ position, Binding.slotAt? bindings position = Binding.slotAt? others position)
    (names : List String) (elements : List Node) :
    ∀ (draft : Draft) (position : Nat), draft.addAll names bindings position elements
      = draft.addAll names others position elements := by
  induction elements with
  | nil => exact fun _ _ => rfl
  | cons element elements ih =>
    intro draft position
    rw [addAll, addAll, add, add, elementOpcode_eq_of_slots h]
    simp only [ih]

/-- Replacing one element changes no layout if it changes none of that element. -/
theorem Draft.addAll_middle {names : List String} {left right : List Node} {element other : Node} :
    ∀ {draft : Draft} {position : Nat},
    (∀ draft : Draft, draft.add names bindings (position + left.length) element
      = draft.add names bindings (position + left.length) other) →
    draft.addAll names bindings position (left ++ element :: right)
      = draft.addAll names bindings position (left ++ other :: right) := by
  induction left with
  | nil =>
    intro draft position h
    rw [List.nil_append, List.nil_append, addAll, addAll]
    exact congrArg (· >>= _) (h draft)
  | cons first left ih =>
    intro draft position h
    rw [List.cons_append, List.cons_append, addAll, addAll]
    refine congrArg _ (funext fun next => ih fun draft => ?_)
    have hsum : position + 1 + left.length = position + (first :: left).length := by
      rw [List.length_cons]; omega
    rw [hsum, h]

/-- A bound element asks for the opcode in its slot. -/
theorem elementOpcode_of_slot {position slot : Nat} {element body : Node} {hasCaptures : Bool}
    (hbody : element.elementInstruction = .ok body)
    (hkind : body.kind = .instruction ∨ body.kind = .instructionSet)
    (hslot : Binding.slotAt? bindings position = some slot) :
    elementOpcode bindings position element hasCaptures = .ok (some (.slot slot)) := by
  refine bind_eq_ok_iff.2 ⟨body, hbody, ?_⟩
  rcases hkind with hkind | hkind <;> simp only [hkind, hslot]

/-- A bound element is laid out the same, whether it lists a set or names an alias. -/
theorem Draft.add_withChild {names : List String} {position slot : Nat} {element body : Node}
    {name : String} (hbody : element.elementInstruction = .ok body)
    (hkind : body.kind = .instructionSet) (hslot : Binding.slotAt? bindings position = some slot)
    (draft : Draft) :
    draft.add names bindings position (element.withChild 0 (.leaf .instruction name))
      = draft.add names bindings position element := by
  obtain ⟨kind, text, _ | ⟨first, captures⟩⟩ := element
  · cases hbody
  have hname : ((Node.mk kind text (first :: captures)).withChild 0
      (.leaf .instruction name)).elementInstruction = .ok (.leaf .instruction name) := rfl
  rw [add, add]
  simp only [elementOpcode_of_slot hbody (.inr hkind) hslot,
    elementOpcode_of_slot hname (.inl rfl) hslot]
  rfl

end Layout

namespace MatchSide

/-- A match side is laid out by the slots of the bindings. -/
theorem ofRule_eq_of_slots {bindings others : List Binding}
    (h : ∀ position, Binding.slotAt? bindings position = Binding.slotAt? others position)
    (rule : Node) : ofRule rule bindings = ofRule rule others := by
  rw [ofRule, ofRule]
  simp only [Layout.Draft.addAll_eq_of_slots h]

end MatchSide

/-! ## Expansions -/

namespace Expansion

variable {rule other : Node} {table table' : AliasTable}

theorem candidates_of_follows {aliases : AliasTable} {bindings : List Binding}
    {ranges : List Binding.Range} (h : List.Forall₂ (Binding.Follows aliases) bindings ranges) :
    candidates aliases bindings = .ok (ranges.map Binding.Range.instructions) :=
  candidates_eq_ok_iff.2
    (List.forall₂_map_right_iff.2 (h.imp fun _ _ => Binding.Follows.instructions))

/-- A matcher depends on the slots of the bindings, and on its rule through the name and the
replacement side. -/
theorem matcher_eq_of_sameSlots {bindings others : List Binding} {sets : List (List String)}
    {side : MatchSide} (h : Binding.SameSlots bindings others) (htext : rule.text = other.text)
    (hreplacement : rule.child? 1 = other.child? 1) (chosen : List String) :
    Plan.matcher ⟨bindings, sets, side⟩ rule chosen
      = Plan.matcher ⟨others, sets, side⟩ other chosen := by
  have hchoice : Choice.ofBindings bindings chosen = Choice.ofBindings others chosen := by
    rw [Choice.ofBindings, Choice.ofBindings, h.displayNames]
  have hname : Matcher.nameTemplate rule bindings = Matcher.nameTemplate other others := by
    rw [Matcher.nameTemplate, Matcher.nameTemplate, htext, h.length_eq]
  rw [Plan.matcher, Plan.matcher, Matcher.ofChoice, Matcher.ofChoice]
  dsimp only
  rw [hchoice, hname, htext, hreplacement]
  simp only [Scene.replacement_eq_of_slots h.slotNamed?_eq]

/-- **An expansion is that of its ranges**: rules that are laid out the same and range over the same
instructions have the same matchers. -/
theorem same_of_ranges (htext : rule.text = other.text)
    (hreplacement : rule.child? 1 = other.child? 1)
    (hasked : ∀ name ∈ rule.askedNames, ¬ Binding.IsMadeUp name)
    (hasked' : ∀ name ∈ other.askedNames, ¬ Binding.IsMadeUp name)
    (hranges : (rule.matchSide >>= fun pattern => Binding.ranges table 0 pattern.children)
      = other.matchSide >>= fun pattern => Binding.ranges table' 0 pattern.children)
    (hside : ∀ bindings aliases, (Binding.resolve rule table).result = .ok (bindings, aliases) →
      MatchSide.ofRule rule bindings = MatchSide.ofRule other bindings) :
    Same (ofRule rule table) (ofRule other table') := by
  have hfollows := Binding.resolve_follows table hasked
  have hfollows' := Binding.resolve_follows table' hasked'
  rw [← hranges] at hfollows'
  refine same_of_plans htext ?_
  rw [result_plan, result_plan]
  refine ((hfollows.join hfollows').imp fun first second hfirst _ hsame =>
    (⟨hside _ _ hfirst, hsame⟩ : _ ∧ _)).bind ?_
  rintro ⟨bindings, aliases⟩ ⟨others, aliases'⟩ ⟨hlaid, ranges, hbindings, hothers⟩
  have hslots := Binding.sameSlots_of_follows hbindings hothers
  dsimp only at hlaid ⊢
  rw [candidates_of_follows hbindings, candidates_of_follows hothers, hlaid,
    MatchSide.ofRule_eq_of_slots hslots.slotAt?_eq]
  refine .bind_same fun sets _ => .bind_same fun side _ => .ok ⟨rfl, ?_⟩
  exact matcher_eq_of_sameSlots hslots htext hreplacement

/-- An alias that a rule does not ask for makes no difference to it. -/
theorem same_of_unasked (hasked : ∀ name ∈ rule.askedNames, ¬ Binding.IsMadeUp name)
    (h : ∀ name ∈ rule.askedNames, table.get? name = table'.get? name) :
    Same (ofRule rule table) (ofRule rule table') := by
  refine same_of_ranges rfl rfl hasked hasked ?_ fun _ _ _ => rfl
  cases hpattern : rule.matchSide with
  | error fault => rfl
  | ok pattern =>
    refine Binding.ranges_eq_of_forall₂ (List.forall₂_same.2 fun element helement => ?_) 0
    exact Binding.rangeOf_eq_of_asked fun name hname =>
      h name ((Node.mem_askedNames hpattern).2 ⟨element, helement, hname⟩)

section Naming

variable {pattern element set : Node} {index : Nat} {name : String}
  (hpattern : rule.child? 0 = some pattern) (helement : pattern.child? index = some element)
  (hset : element.child? 0 = some set) (hkind : set.kind = .instructionSet)

include helement hset hkind

/-- Under a table where the name stands for the set, the elements range over the same. -/
theorem ranges_naming (hname : table'.get? name = some (firstOccurrences [] set.childTexts))
    (h : ∀ element ∈ pattern.children, ∀ asked, element.asked? = some asked →
      table.get? asked = table'.get? asked) :
    Binding.ranges table 0 pattern.children
      = Binding.ranges table' 0
        (pattern.withChild index (element.withChild 0 (.leaf .instruction name))).children := by
  obtain ⟨left, right, -, hchildren, hother⟩ := Node.exists_of_child? helement
  rw [hother]
  rw [hchildren] at h ⊢
  rw [List.forall_mem_append, List.forall_mem_cons] at h
  refine Binding.ranges_eq_of_forall₂ (List.rel_append ?_ (.cons (fun position => ?_) ?_)) 0
  · exact List.forall₂_same.2 fun other hmem => Binding.rangeOf_eq_of_asked (h.1 other hmem)
  · have hlisted : Binding.listed? table set = some (firstOccurrences [] set.childTexts) :=
      if_pos hkind
    have hnamed : Binding.listed? table' (.leaf .instruction name)
        = some (firstOccurrences [] set.childTexts) := hname
    have hbody : (element.withChild 0 (.leaf .instruction name)).elementInstruction
        = .ok (.leaf .instruction name) :=
      Node.elementInstruction_of_child? (Node.child?_withChild hset)
    rw [Binding.rangeOf_of_listed (Node.elementInstruction_of_child? hset) (.inr hkind) hlisted,
      Binding.rangeOf_of_listed hbody (.inl rfl) hnamed]
    rfl
  · exact List.forall₂_same.2 fun other hmem => Binding.rangeOf_eq_of_asked (h.2.2 other hmem)

/-- The match side is laid out the same. -/
theorem ofRule_naming {bindings : List Binding} {slot : Nat}
    (hslot : Binding.slotAt? bindings index = some slot) (hpattern : rule.child? 0 = some pattern) :
    MatchSide.ofRule rule bindings
      = MatchSide.ofRule (rule.naming pattern element index name) bindings := by
  obtain ⟨left, right, rfl, hchildren, hother⟩ := Node.exists_of_child? helement
  have hnames :
      Layout.capturedNames (left ++ element.withChild 0 (.leaf .instruction name) :: right)
        = Layout.capturedNames (left ++ element :: right) := by
    simp only [Layout.capturedNames, List.flatMap_append, List.flatMap_cons,
      Node.drop_childTexts_withChild]
  have hadd (names : List String) (draft : Layout.Draft) :
      draft.addAll names bindings 0 (left ++ element.withChild 0 (.leaf .instruction name) :: right)
        = draft.addAll names bindings 0 (left ++ element :: right) := by
    rw [← Nat.zero_add left.length] at hslot
    exact Layout.Draft.addAll_middle
      (Layout.Draft.add_withChild (Node.elementInstruction_of_child? hset) hkind hslot)
  rw [MatchSide.ofRule, MatchSide.ofRule, Node.naming, Node.matchSide_of_child? hpattern,
    Node.matchSide_of_child? (Node.child?_withChild hpattern), Node.kind_withChild]
  split
  case isFalse => rfl
  case isTrue =>
    dsimp only [bind, Except.bind]
    rw [hother, hchildren, hnames, hadd]

include hpattern

omit hkind in
/-- The rule asks for the new name, besides what it asked for. -/
theorem mem_askedNames_naming {asked : String}
    (h : asked ∈ (rule.naming pattern element index name).askedNames) :
    asked = name ∨ asked ∈ rule.askedNames := by
  obtain ⟨left, right, -, hchildren, hother⟩ := Node.exists_of_child? helement
  have hbody : (element.withChild 0 (.leaf .instruction name)).elementInstruction
      = .ok (.leaf .instruction name) :=
    Node.elementInstruction_of_child? (Node.child?_withChild hset)
  rw [Node.askedNames, Node.matchSide_of_child? hpattern]
  rw [Node.askedNames, Node.naming, Node.matchSide_of_child? (Node.child?_withChild hpattern),
    Node.kind_withChild] at h
  split_ifs at h ⊢
  · dsimp only at h ⊢
    rw [hother, List.filterMap_append,
      List.filterMap_cons_some (Node.asked?_of_instruction hbody rfl)] at h
    rw [hchildren, List.filterMap_append]
    rcases List.mem_append.1 h with h | h
    · exact .inr (List.mem_append_left _ h)
    · refine (List.mem_cons.1 h).imp_right fun h => List.mem_append_right _ ?_
      exact ((List.sublist_cons_self element right).filterMap _).subset h
  · exact .inr h

/-- **An alias of its set stands for an element's set.** -/
theorem same_naming (hasked : ∀ asked ∈ rule.askedNames, ¬ Binding.IsMadeUp asked)
    (hname : ¬ Binding.IsMadeUp name)
    (hget : table'.get? name = some (firstOccurrences [] set.childTexts))
    (h : ∀ asked ∈ rule.askedNames, table.get? asked = table'.get? asked) :
    Same (ofRule rule table) (ofRule (rule.naming pattern element index name) table') := by
  have hmatchSide := Node.matchSide_of_child? hpattern
  refine same_of_ranges rfl (List.getElem?_set_ne Nat.zero_ne_one).symm hasked
    (fun asked hasks => ?_) ?_ fun bindings aliases hresolve => ?_
  · rcases mem_askedNames_naming hpattern helement hset hasks with rfl | hasks
    · exact hname
    · exact hasked asked hasks
  · rw [Node.naming, hmatchSide, Node.matchSide_of_child? (Node.child?_withChild hpattern),
      Node.kind_withChild]
    split
    case isFalse => rfl
    case isTrue hpatternKind =>
      rw [if_pos hpatternKind] at hmatchSide
      exact ranges_naming helement hset hkind hget fun other hmem asked hasks =>
        h asked ((Node.mem_askedNames hmatchSide).2 ⟨other, hmem, hasks⟩)
  · -- The element is laid out as a slot either way, since a listed set is always bound.
    obtain ⟨pattern', hpattern'⟩ := Binding.matchSide_of_resolve hresolve
    rw [hmatchSide] at hpattern'
    split at hpattern'
    case isFalse => cases hpattern'
    case isTrue hpatternKind =>
      rw [if_pos hpatternKind] at hmatchSide
      have hlisted : Binding.listed? table set = some (firstOccurrences [] set.childTexts) :=
        if_pos hkind
      obtain ⟨binding, hbinding, hposition, -⟩ :=
        (Binding.resolves_of_resolve hmatchSide hresolve).get?_of_listed? helement
          (Node.elementInstruction_of_child? hset) hlisted
      rw [Nat.zero_add] at hposition
      obtain ⟨slot, hslot⟩ := Option.isSome_iff_exists.1
        (Binding.isSome_slotAt?_iff.2 ⟨binding, hbinding, hposition⟩)
      exact ofRule_naming helement hset hkind hslot hpattern

end Naming

end Expansion

/-! ## Programs -/

section Program

variable {program declaration rule other : Node} {index : Nat}

/-- A declaration is put behind those that are there. -/
theorem leadingDeclarations_declaring (h : declaration.kind = .declaration) :
    AliasTable.leadingDeclarations (program.declaring declaration)
      = AliasTable.leadingDeclarations program ++ [declaration] := by
  rw [AliasTable.leadingDeclarations, Node.declaring, Node.children_mk,
    AliasTable.leadingDeclarations]
  induction program.children with
  | nil => simp [h]
  | cons child children ih =>
    by_cases hchild : child.kind = .declaration
    · simp [hchild, ih]
    · simp [hchild, h]

theorem rules_declaring (h : declaration.kind = .declaration) :
    (program.declaring declaration).rules = program.rules := by
  rw [Node.rules, Node.declaring, Node.children_mk, AliasTable.leadingDeclarations,
    List.filter_append, List.filter_cons_of_neg (by simp [h]), ← List.filter_append,
    List.takeWhile_append_dropWhile, Node.rules]

/-- Replacing a rule changes no declaration. -/
theorem leadingDeclarations_withChild (hrule : program.child? index = some rule)
    (h : rule.kind ≠ .declaration) (h' : other.kind ≠ .declaration) :
    AliasTable.leadingDeclarations (program.withChild index other)
      = AliasTable.leadingDeclarations program := by
  obtain ⟨left, right, -, hchildren, hother⟩ := Node.exists_of_child? hrule
  rw [AliasTable.leadingDeclarations, AliasTable.leadingDeclarations, hother, hchildren]
  clear hchildren hother
  induction left with
  | nil => simp [h, h']
  | cons child left ih =>
    by_cases hchild : child.kind = .declaration
    · simp [hchild, ih]
    · simp [hchild]

/-- One rule of a program gives way to another, and the rest stays. -/
theorem exists_rules_withChild (hrule : program.child? index = some rule) (h : rule.kind = .rule)
    (h' : other.kind = .rule) :
    ∃ left right, program.rules = left ++ rule :: right ∧
      (program.withChild index other).rules = left ++ other :: right := by
  obtain ⟨left, right, -, hchildren, hother⟩ := Node.exists_of_child? hrule
  refine ⟨left.filter (·.kind = .rule), right.filter (·.kind = .rule), ?_, ?_⟩
  · rw [Node.rules, hchildren, List.filter_append, List.filter_cons_of_pos (by simp [h])]
  · rw [Node.rules, hother, List.filter_append, List.filter_cons_of_pos (by simp [h'])]

/-- **One more declaration adds its alias**, if the name is new. -/
theorem build_declaring {name : String} {set : Node}
    (hnew : name ∉ (AliasTable.leadingDeclarations program).map Node.declaredName) :
    EndsAlike (fun table table' => table' = table.insert name set.childTexts)
      (AliasTable.build program).result
      (AliasTable.build (program.declaring (.aliasing name set))).result := by
  rw [AliasTable.build, AliasTable.build, leadingDeclarations_declaring rfl,
    AliasTable.foldlM_declare_concat]
  cases htable :
      ((AliasTable.leadingDeclarations program).foldlM AliasTable.declare .empty).result with
  | error fault => exact .error fault
  | ok table =>
    have hunknown : table.contains name = false := by
      refine Bool.eq_false_iff.2 fun hknown => ?_
      rcases AliasTable.declaredName_of_foldlM htable hknown with hknown | hmem
      · cases hknown
      · exact hnew hmem
    have hdeclare : (table.declare (.aliasing name set)).result
        = .ok (table.insert name set.childTexts) :=
      AliasTable.declare_eq_ok_iff.2 ⟨Nat.le_refl 2, hunknown, rfl⟩
    show EndsAlike _ (.ok table) (table.declare _).result
    rw [hdeclare]
    exact .ok rfl

end Program

namespace GeneratedFile

/-- **A set written in a match side means the same as an alias that is declared for it.**  The
element names the alias instead, which is declared last with the same instructions; it is new, and
neither it nor any instruction that a match side asks for is a name that is made up for such a
set. -/
theorem ofProgram_naming {config : Config} {program rule pattern element set : Node}
    {stem name : String} {ruleIndex index : Nat} (hrule : program.child? ruleIndex = some rule)
    (hruleKind : rule.kind = .rule) (hpattern : rule.child? 0 = some pattern)
    (helement : pattern.child? index = some element) (hset : element.child? 0 = some set)
    (hkind : set.kind = .instructionSet)
    (hasked : ∀ rule ∈ program.rules, ∀ asked ∈ rule.askedNames,
      ¬ Binding.IsMadeUp asked ∧ asked ≠ name)
    (hname : ¬ Binding.IsMadeUp name)
    (hnew : name ∉ (AliasTable.leadingDeclarations program).map Node.declaredName) :
    (ofProgram config ((program.withChild ruleIndex
          (rule.naming pattern element index name)).declaring (.aliasing name set)) stem).result
      = (ofProgram config program stem).result := by
  have hleading : AliasTable.leadingDeclarations
      (program.withChild ruleIndex (rule.naming pattern element index name))
      = AliasTable.leadingDeclarations program :=
    leadingDeclarations_withChild hrule (by simp [hruleKind]) (by simp [Node.naming, hruleKind])
  have hbuild : EndsAlike (fun table table' => table' = table.insert name set.childTexts)
      (AliasTable.build program).result (AliasTable.build ((program.withChild ruleIndex
        (rule.naming pattern element index name)).declaring (.aliasing name set))).result := by
    rw [AliasTable.build, ← hleading]
    exact build_declaring (hleading.symm ▸ hnew)
  obtain ⟨left, right, hrules, hrules'⟩ : ∃ left right, program.rules = left ++ rule :: right ∧
      (program.withChild ruleIndex (rule.naming pattern element index name)).rules
        = left ++ rule.naming pattern element index name :: right :=
    exists_rules_withChild hrule hruleKind hruleKind
  rw [hrules, List.forall_mem_append, List.forall_mem_cons] at hasked
  obtain ⟨hleft, hmiddle, hright⟩ := hasked
  refine (ofProgram_eq_of_same (hbuild.imp ?_)).symm
  rintro table _ - - rfl
  have hget (asked : String) (hne : asked ≠ name) :
      table.get? asked = (table.insert name set.childTexts).get? asked := by
    rw [AliasTable.get?_insert, if_neg hne]
  have hsame (other : Node)
      (h : ∀ asked ∈ other.askedNames, ¬ Binding.IsMadeUp asked ∧ asked ≠ name) :
      (Expansion.ofRule other table).Same
        (Expansion.ofRule other (table.insert name set.childTexts)) :=
    Expansion.same_of_unasked (fun asked hmem => (h asked hmem).1)
      fun asked hmem => hget asked (h asked hmem).2
  rw [rules_declaring rfl, hrules, hrules']
  refine List.rel_append ?_ (.cons ?_ ?_)
  · exact List.forall₂_same.2 fun other hmem => hsame other (hleft other hmem)
  · refine Expansion.same_naming hpattern helement hset hkind
      (fun asked hmem => (hmiddle asked hmem).1) hname ?_
      fun asked hmem => hget asked (hmiddle asked hmem).2
    rw [AliasTable.get?_insert, if_pos rfl]
  · exact List.forall₂_same.2 fun other hmem => hsame other (hright other hmem)

namespace Repeated

/-- An alias for two loads. -/
def load : Node :=
  .aliasing "load"
    (.branch .instructionSet [.leaf .instruction "iload", .leaf .instruction "aload"])

/-- A set that lists an instruction again. -/
def set : Node :=
  .branch .instructionSet
    [.leaf .instruction "a", .leaf .instruction "b", .leaf .instruction "a"]

/-- The element whose set gets a name. -/
def element : Node := .mk .namedElement "x" [set]

/-- The same set twice, ahead of an alias and an instruction. -/
def pattern : Node :=
  .branch .pattern [element, .branch .unnamedElement [set],
    .branch .unnamedElement [.leaf .instruction "load"],
    .branch .unnamedElement [.leaf .instruction "nop"]]

/-- The rule of this match side. -/
def rule : Node := .mk .rule "p" [pattern, .branch .replacement [.leaf .reuse "x"]]

/-- The file with the alias and the rule. -/
def program : Node := .branch .program [load, rule]

/-- No name that the rules ask for is made up, and none is the new one. -/
theorem askedNames_apart : ∀ rule ∈ program.rules, ∀ asked ∈ rule.askedNames,
    ¬ Binding.IsMadeUp asked ∧ asked ≠ "f" := by
  have hstart : ∀ rule ∈ program.rules, ∀ asked ∈ rule.askedNames,
      ¬ "inlined_".toList <+: asked.toList ∧ asked ≠ "f" := by
    decide
  intro rule hrule asked hasked
  exact (hstart rule hrule asked hasked).imp_left fun h hmadeUp => h hmadeUp.start

theorem isSome_ofProgram :
    (ofProgram .default program "t").result.toOption.isSome = true := by
  decide +kernel

end Repeated

/-- A set with a repetition, written twice, of which the first gets a name. -/
theorem ofProgram_naming_repeated : ∃ file,
    (ofProgram .default Repeated.program "t").result = .ok file ∧
      (ofProgram .default (.branch .program [Repeated.load, .aliasing "f" Repeated.set,
        Repeated.rule.naming Repeated.pattern Repeated.element 0 "f"]) "t").result = .ok file := by
  obtain ⟨file, hfile⟩ := Option.isSome_iff_exists.1 Repeated.isSome_ofProgram
  have hsame := @ofProgram_naming .default Repeated.program Repeated.rule Repeated.pattern
    Repeated.element Repeated.set "t" "f" 1 0 rfl rfl rfl rfl rfl rfl Repeated.askedNames_apart
    (fun h => absurd h.start (by decide)) (by decide)
  exact ⟨file, eq_ok_of_toOption hfile, hsame.trans (eq_ok_of_toOption hfile)⟩

end GeneratedFile

end Peephole

import Mathlib.Data.List.Basic
import Peephole.Binding
import Peephole.Proofs.Grammar.TreeLanguage

/-!
# Proofs/Binding/Resolution — which elements are bound, and to what

Resolution walks the match side with the aliases known so far.  `Resolves` says what it finds from
some element on, one constructor for each way an element can go: it names an alias, it stands for
itself, or it lists a set of its own.

Bindings are in the order of the match side, at most one to a position (`Resolves.positions`), and
exactly the elements that range over a set have one (`Resolves.bound_iff`).  The aliases known only
grow.
-/

namespace Peephole

namespace Binding

/-! ## Resolution, from an element on -/

/-- **The bindings of elements**, the first of which stands at a position, and the aliases known
after them. -/
inductive Resolves : Nat → AliasTable → Nat → List Node → List Binding → AliasTable → Prop where
  | done (position : Nat) (table : AliasTable) (used : Nat) :
    Resolves position table used [] [] table
  | named {position used : Nat} {table aliases : AliasTable} {element body : Node}
    {elements : List Node} {bindings : List Binding} {displayName : String}
    (hname : element.displayName = .ok displayName) (hbody : element.elementInstruction = .ok body)
    (hkind : body.kind = .instruction) (halias : table.contains body.text = true)
    (hmore : Resolves (position + 1) table used elements bindings aliases) :
    Resolves position table used (element :: elements)
      (⟨displayName, body.text, position⟩ :: bindings) aliases
  | single {position used : Nat} {table aliases : AliasTable} {element body : Node}
    {elements : List Node} {bindings : List Binding} (hbody : element.elementInstruction = .ok body)
    (hkind : body.kind = .wildcard ∨ body.kind = .instruction ∧ table.contains body.text = false)
    (hmore : Resolves (position + 1) table used elements bindings aliases) :
    Resolves position table used (element :: elements) bindings aliases
  | inlined {position used : Nat} {table aliases : AliasTable} {element body : Node}
    {elements : List Node} {bindings : List Binding} {displayName : String}
    (hname : element.displayName = .ok displayName) (hbody : element.elementInstruction = .ok body)
    (hkind : body.kind = .instructionSet)
    (hmore : Resolves (position + 1)
      (table.insert (inlinedName (freshIndex table used)) body.childTexts) (freshIndex table used)
      elements bindings aliases) :
    Resolves position table used (element :: elements)
      (⟨displayName, inlinedName (freshIndex table used), position⟩ :: bindings) aliases

/-- Going through the elements yields the bindings that they resolve to, behind those found
before. -/
theorem resolves_of_elements : ∀ {elements : List Node} {position : Nat} {found final : Resolution},
    (found.elements position elements).result = .ok final →
    ∃ bindings, final.bindings = found.bindings ++ bindings ∧
      Resolves position found.table found.used elements bindings final.table
  | [], position, found, final, h => by
    obtain rfl := Except.ok.inj h
    exact ⟨[], by simp, .done _ _ _⟩
  | element :: elements, position, found, final, h => by
    rw [Resolution.elements, Logged.result_bind] at h
    obtain ⟨next, hnext, hmore⟩ := bind_eq_ok_iff.1 h
    obtain ⟨bindings, hbindings, hresolves⟩ := resolves_of_elements hmore
    rw [Resolution.element, Logged.result_bind] at hnext
    obtain ⟨displayName, hname, hnext⟩ := bind_eq_ok_iff.1 hnext
    rw [Logged.result_bind] at hnext
    obtain ⟨body, hbody, hnext⟩ := bind_eq_ok_iff.1 hnext
    rw [Logged.result_ofExcept] at hname hbody
    split at hnext
    case h_1 hkind =>
      split at hnext
      case isTrue halias =>
        obtain rfl := Except.ok.inj hnext
        refine ⟨_, ?_, .named hname hbody hkind halias hresolves⟩
        rw [hbindings, List.append_assoc]
        rfl
      case isFalse hnot =>
        obtain rfl := Except.ok.inj hnext
        exact ⟨bindings, hbindings, .single hbody (.inr ⟨hkind, by simpa using hnot⟩) hresolves⟩
    case h_2 hkind =>
      obtain rfl := Except.ok.inj hnext
      exact ⟨bindings, hbindings, .single hbody (.inl hkind) hresolves⟩
    case h_3 hkind =>
      obtain rfl := Except.ok.inj hnext
      refine ⟨_, ?_, .inlined hname hbody hkind hresolves⟩
      rw [hbindings, List.append_assoc]
      rfl
    case h_4 => simp at hnext

/-- A rule that resolves has a match side. -/
theorem matchSide_of_resolve {rule : Node} {table : AliasTable}
    {found : List Binding × AliasTable} (h : (resolve rule table).result = .ok found) :
    ∃ pattern, rule.matchSide = .ok pattern := by
  rw [resolve, Logged.result_bind] at h
  obtain ⟨pattern, hpattern, -⟩ := bind_eq_ok_iff.1 h
  exact ⟨pattern, hpattern⟩

/-- **What the resolution of a rule finds.** -/
theorem resolves_of_resolve {rule pattern : Node} {table aliases : AliasTable}
    {bindings : List Binding} (hpattern : rule.matchSide = .ok pattern)
    (h : (resolve rule table).result = .ok (bindings, aliases)) :
    Resolves 0 table 0 pattern.children bindings aliases := by
  rw [resolve, Logged.result_bind] at h
  obtain ⟨pattern', hpattern', h⟩ := bind_eq_ok_iff.1 h
  obtain rfl := Except.ok.inj (hpattern.symm.trans hpattern')
  rw [Logged.result_bind] at h
  obtain ⟨found, hfound, h⟩ := bind_eq_ok_iff.1 h
  obtain ⟨bindings', hbindings, hresolves⟩ := resolves_of_elements hfound
  obtain ⟨rfl, rfl⟩ := Prod.mk.inj (Except.ok.inj h)
  rw [hbindings]
  exact hresolves

/-! ## Positions -/

variable {position used : Nat} {table aliases : AliasTable} {elements : List Node}
  {bindings : List Binding}

/-- **Bindings stand in the order of the match side, at most one to a position.** -/
theorem Resolves.positions (h : Resolves position table used elements bindings aliases) :
    (∀ binding ∈ bindings, position ≤ binding.position) ∧
      bindings.Pairwise (·.position < ·.position) := by
  induction h with
  | done => simp
  | single _ _ _ ih => exact ⟨fun binding hmem => Nat.le_of_succ_le (ih.1 binding hmem), ih.2⟩
  | named _ _ _ _ _ ih =>
    rw [List.forall_mem_cons, List.pairwise_cons]
    exact ⟨⟨Nat.le_refl _, fun binding hmem => Nat.le_of_succ_le (ih.1 binding hmem)⟩, ih⟩
  | inlined _ _ _ _ ih =>
    rw [List.forall_mem_cons, List.pairwise_cons]
    exact ⟨⟨Nat.le_refl _, fun binding hmem => Nat.le_of_succ_le (ih.1 binding hmem)⟩, ih⟩

/-- Whether the instruction of an element ranges over a set: one of its own, or that of an alias,
which may be the alias of a set written before. -/
def Ranges (table : AliasTable) (bindings : List Binding) (position : Nat) (body : Node) : Prop :=
  body.kind = .instructionSet ∨ body.kind = .instruction ∧
    (table.contains body.text = true ∨
      ∃ binding ∈ bindings, binding.position < position ∧ binding.aliasName = body.text)

/-- Behind a binding, its alias is one of those known. -/
theorem ranges_cons (binding : Binding) {later : AliasTable} {index : Nat} {body : Node}
    (hcontains : ∀ name, later.contains name = true ↔
      table.contains name = true ∨ binding.aliasName = name) :
    Ranges table (binding :: bindings) (binding.position + (index + 1)) body ↔
      Ranges later bindings (binding.position + 1 + index) body := by
  have hsum : binding.position + (index + 1) = binding.position + 1 + index := by omega
  have hlt : binding.position < binding.position + 1 + index := by omega
  rw [Ranges, Ranges, hsum, hcontains]
  simp only [List.mem_cons, exists_eq_or_imp, hlt, true_and, or_assoc]

theorem exists_position_cons (binding : Binding) {index : Nat} :
    (∃ other ∈ binding :: bindings, other.position = binding.position + (index + 1)) ↔
      ∃ other ∈ bindings, other.position = binding.position + 1 + index := by
  have hsum : binding.position + (index + 1) = binding.position + 1 + index := by omega
  have hne : binding.position ≠ binding.position + 1 + index := by omega
  simp only [hsum, List.mem_cons, exists_eq_or_imp, hne, false_or]

/-- **Exactly the elements that range over a set are bound.** -/
theorem Resolves.bound_iff (h : Resolves position table used elements bindings aliases)
    {index : Nat} {element body : Node} (helement : elements[index]? = some element)
    (hbody : element.elementInstruction = .ok body) :
    (∃ binding ∈ bindings, binding.position = position + index) ↔
      Ranges table bindings (position + index) body := by
  induction h generalizing index with
  | done => simp at helement
  | @named position used table _ first firstBody elements bindings displayName _ hfirst hkind halias
      hmore ih =>
    cases index with
    | zero =>
      obtain rfl := Option.some.inj helement
      obtain rfl := Except.ok.inj (hfirst.symm.trans hbody)
      exact iff_of_true ⟨_, List.mem_cons_self, rfl⟩ (.inr ⟨hkind, .inl halias⟩)
    | succ index =>
      refine ((exists_position_cons ⟨_, _, position⟩).trans (ih helement)).trans
        (ranges_cons ⟨_, _, position⟩ fun name => ⟨.inl, ?_⟩).symm
      rintro (hname | rfl)
      · exact hname
      · exact halias
  | @single position used table _ first firstBody elements bindings hfirst hkind hmore ih =>
    have hle := hmore.positions.1
    cases index with
    | zero =>
      obtain rfl := Option.some.inj helement
      obtain rfl := Except.ok.inj (hfirst.symm.trans hbody)
      refine iff_of_false ?_ ?_
      · rintro ⟨binding, hmem, hposition⟩
        have := hle binding hmem
        omega
      · rintro (hset | ⟨hone, halias | ⟨binding, hmem, hlt, -⟩⟩)
        · rcases hkind with hkind | ⟨hkind, -⟩ <;> simp [hkind] at hset
        · rcases hkind with hkind | ⟨-, hnot⟩
          · simp [hkind] at hone
          · simp [hnot] at halias
        · have := hle binding hmem
          omega
    | succ index =>
      have hsum : position + (index + 1) = position + 1 + index := by omega
      rw [hsum]
      exact ih helement
  | @inlined position used table _ first firstBody elements bindings displayName _ hfirst hkind
      hmore ih =>
    cases index with
    | zero =>
      obtain rfl := Option.some.inj helement
      obtain rfl := Except.ok.inj (hfirst.symm.trans hbody)
      exact iff_of_true ⟨_, List.mem_cons_self, rfl⟩ (.inl hkind)
    | succ index =>
      refine ((exists_position_cons ⟨_, _, position⟩).trans (ih helement)).trans
        (ranges_cons ⟨_, _, position⟩ fun name => ?_).symm
      rw [AliasTable.contains_insert, Bool.or_eq_true, decide_eq_true_iff, or_comm,
        @eq_comm String name]

/-- The slot of a binding is found at its position. -/
theorem slotAt?_of_getElem? (hpairwise : bindings.Pairwise (·.position < ·.position)) {slot : Nat}
    {binding : Binding} (h : bindings[slot]? = some binding) :
    slotAt? bindings binding.position = some slot := by
  obtain ⟨hlt, rfl⟩ := List.getElem?_eq_some_iff.1 h
  refine List.findIdx?_eq_some_iff_getElem.2 ⟨hlt, by simp, fun earlier hearlier => ?_⟩
  have := List.pairwise_iff_getElem.1 hpairwise earlier slot (by omega) hlt hearlier
  simp only [beq_iff_eq]
  omega

theorem isSome_slotAt?_iff :
    (slotAt? bindings position).isSome = true ↔
      ∃ binding ∈ bindings, binding.position = position := by
  simp [slotAt?, List.findIdx?_isSome]

/-! ## Aliases -/

/-- The aliases known only grow. -/
theorem Resolves.contains_mono (h : Resolves position table used elements bindings aliases)
    {name : String} (hname : table.contains name = true) : aliases.contains name = true := by
  induction h with
  | done => exact hname
  | named _ _ _ _ _ ih => exact ih hname
  | single _ _ _ ih => exact ih hname
  | inlined _ _ _ _ ih => exact ih (by rw [AliasTable.contains_insert, hname, Bool.or_true])

/-- The number taken for a set is the first free one behind those used. -/
theorem find?_freshIndex (table : AliasTable) (used : Nat) :
    ((List.range' (used + 1) (table.size + 1)).find? fun k => !table.contains (inlinedName k))
      = some (freshIndex table used) := by
  have hspell : Function.Injective inlinedName := fun m n heq =>
    toString_nat_inj ((String.append_right_inj _).1 heq)
  obtain ⟨number, hfind, -⟩ := exists_find?_range'_free hspell (table.entries.map (·.1)) used
  have hcontains : (fun k => !table.contains (inlinedName k))
      = fun k => !(table.entries.map (·.1)).contains (inlinedName k) := by
    funext k
    rw [AliasTable.contains_eq_contains_map]
  rw [List.length_map] at hfind
  rw [freshIndex, AliasTable.size, hcontains, hfind, Option.getD_some]

theorem freshIndex_not_contains (table : AliasTable) (used : Nat) :
    table.contains (inlinedName (freshIndex table used)) = false := by
  simpa using List.find?_some (find?_freshIndex table used)

/-- Naming a set hides no alias: its name is a new one. -/
theorem get?_insert_fresh {name : String} {set instructions : List String}
    (hset : table.get? name = some set) :
    (table.insert (inlinedName (freshIndex table used)) instructions).get? name = some set := by
  have hne : name ≠ inlinedName (freshIndex table used) := by
    rintro rfl
    have hfresh := freshIndex_not_contains table used
    rw [AliasTable.contains, hset] at hfresh
    cases hfresh
  rw [AliasTable.get?_insert, if_neg hne, hset]

/-- A set written in a match side gets a name of its own, so no alias changes its instructions. -/
theorem Resolves.get?_of_get? (h : Resolves position table used elements bindings aliases)
    {name : String} {set : List String} (hset : table.get? name = some set) :
    aliases.get? name = some set := by
  induction h with
  | done => exact hset
  | named _ _ _ _ _ ih => exact ih hset
  | single _ _ _ ih => exact ih hset
  | inlined _ _ _ _ ih => exact ih (get?_insert_fresh hset)

/-- **Every binding has its alias.** -/
theorem Resolves.contains_aliasName (h : Resolves position table used elements bindings aliases) :
    ∀ binding ∈ bindings, aliases.contains binding.aliasName = true := by
  induction h with
  | done => simp
  | named _ _ _ halias hmore ih => exact List.forall_mem_cons.2 ⟨hmore.contains_mono halias, ih⟩
  | single _ _ _ ih => exact ih
  | inlined _ _ _ hmore ih =>
    refine List.forall_mem_cons.2 ⟨hmore.contains_mono ?_, ih⟩
    rw [AliasTable.contains_insert, decide_eq_true rfl, Bool.true_or]

/-- The instructions that an element of a match side lists, or that the alias it names lists. -/
def listed? (table : AliasTable) (body : Node) : Option (List String) :=
  if body.kind = .instructionSet then some (firstOccurrences [] body.childTexts)
  else if body.kind = .instruction then table.get? body.text
  else none

/-- What is listed for an element stays so when another set gets its name. -/
theorem listed?_insert_fresh {body : Node} {set instructions : List String}
    (h : listed? table body = some set) :
    listed? (table.insert (inlinedName (freshIndex table used)) instructions) body = some set := by
  unfold listed? at h ⊢
  split at h
  case isTrue hlist => rwa [if_pos hlist]
  case isFalse hlist =>
    rw [if_neg hlist]
    split at h
    case isTrue hone => rw [if_pos hone, get?_insert_fresh h]
    case isFalse => cases h

/-- **A binding ranges over the instructions that its element lists.** -/
theorem Resolves.get?_of_listed? (h : Resolves position table used elements bindings aliases)
    {index : Nat} {element body : Node} (helement : elements[index]? = some element)
    (hbody : element.elementInstruction = .ok body) {set : List String}
    (hset : listed? table body = some set) :
    ∃ binding ∈ bindings, binding.position = position + index ∧
      aliases.get? binding.aliasName = some set := by
  induction h generalizing index with
  | done => simp at helement
  | named _ hfirst hkind _ hmore ih =>
    cases index with
    | zero =>
      obtain rfl := Option.some.inj helement
      obtain rfl := Except.ok.inj (hfirst.symm.trans hbody)
      refine ⟨_, List.mem_cons_self, rfl, hmore.get?_of_get? ?_⟩
      simpa [listed?, hkind] using hset
    | succ index =>
      obtain ⟨binding, hmem, hposition, hget⟩ := ih helement hset
      exact ⟨binding, List.mem_cons_of_mem _ hmem, by omega, hget⟩
  | single hfirst hkind _ ih =>
    cases index with
    | zero =>
      obtain rfl := Option.some.inj helement
      obtain rfl := Except.ok.inj (hfirst.symm.trans hbody)
      rcases hkind with hkind | ⟨hkind, hnot⟩
      · simp [listed?, hkind] at hset
      · simp [listed?, hkind] at hset
        simp [AliasTable.contains, hset] at hnot
    | succ index =>
      obtain ⟨binding, hmem, hposition, hget⟩ := ih helement hset
      exact ⟨binding, hmem, by omega, hget⟩
  | inlined _ hfirst hkind hmore ih =>
    cases index with
    | zero =>
      obtain rfl := Option.some.inj helement
      obtain rfl := Except.ok.inj (hfirst.symm.trans hbody)
      refine ⟨_, List.mem_cons_self, rfl, hmore.get?_of_get? ?_⟩
      rw [AliasTable.get?_insert, if_pos rfl]
      simpa [listed?, hkind] using hset
    | succ index =>
      obtain ⟨binding, hmem, hposition, hget⟩ := ih helement (listed?_insert_fresh hset)
      exact ⟨binding, List.mem_cons_of_mem _ hmem, by omega, hget⟩

/-- The instruction of a bound element: an alias, by which the binding goes, or a set. -/
def BoundTo (binding : Binding) (body : Node) : Prop :=
  body.kind = .instruction ∧ binding.aliasName = body.text ∨ body.kind = .instructionSet

/-- **A binding belongs to an element, and bears its name.** -/
theorem Resolves.exists_boundTo (h : Resolves position table used elements bindings aliases) :
    ∀ binding ∈ bindings, ∃ index element body, binding.position = position + index ∧
      elements[index]? = some element ∧ element.displayName = .ok binding.displayName ∧
      element.elementInstruction = .ok body ∧ binding.BoundTo body := by
  have hlater : ∀ {first : Node} {elements : List Node} {binding : Binding} {position : Nat},
      (∃ index element body, binding.position = position + 1 + index ∧
        elements[index]? = some element ∧ element.displayName = .ok binding.displayName ∧
        element.elementInstruction = .ok body ∧ binding.BoundTo body) →
      ∃ index element body, binding.position = position + index ∧
        (first :: elements)[index]? = some element ∧
        element.displayName = .ok binding.displayName ∧ element.elementInstruction = .ok body ∧
        binding.BoundTo body := by
    rintro first elements binding position ⟨index, element, body, hposition, helement, hrest⟩
    exact ⟨index + 1, element, body, by omega, helement, hrest⟩
  induction h with
  | done => simp
  | named hname hbody hkind _ _ ih =>
    exact List.forall_mem_cons.2 ⟨⟨0, _, _, rfl, rfl, hname, hbody, .inl ⟨hkind, rfl⟩⟩,
      fun binding hmem => hlater (ih binding hmem)⟩
  | single _ _ _ ih => exact fun binding hmem => hlater (ih binding hmem)
  | inlined hname hbody hkind _ ih =>
    exact List.forall_mem_cons.2 ⟨⟨0, _, _, rfl, rfl, hname, hbody, .inr hkind⟩,
      fun binding hmem => hlater (ih binding hmem)⟩

/-- A bound element asks for an instruction. -/
theorem Resolves.exists_body (h : Resolves position table used elements bindings aliases) :
    ∀ binding ∈ bindings, ∃ index element body, binding.position = position + index ∧
      elements[index]? = some element ∧ element.displayName = .ok binding.displayName ∧
      element.elementInstruction = .ok body ∧ body.kind ≠ .wildcard := by
  intro binding hmem
  obtain ⟨index, element, body, hposition, helement, hname, hbody, hbound⟩ :=
    h.exists_boundTo binding hmem
  refine ⟨index, element, body, hposition, helement, hname, hbody, ?_⟩
  rcases hbound with ⟨hkind, -⟩ | hkind <;> simp [hkind]

end Binding

/-! ## Instructions -/

/-- The instructions of every alias are identifiers. -/
def AliasTable.ListsIdentifiers (table : AliasTable) : Prop :=
  ∀ name set, table.get? name = some set → ∀ instruction ∈ set, IsIdentifier instruction

/-- A table of identifiers stays one when identifiers are added. -/
theorem AliasTable.ListsIdentifiers.insert {table : AliasTable} (h : table.ListsIdentifiers)
    {name : String} {instructions : List String}
    (hinstructions : ∀ instruction ∈ instructions, IsIdentifier instruction) :
    (table.insert name instructions).ListsIdentifiers := by
  intro other set hset instruction hinstruction
  rw [get?_insert] at hset
  split at hset
  case isTrue =>
    obtain rfl := Option.some.inj hset
    exact hinstructions instruction (mem_firstOccurrences.1 hinstruction).1
  case isFalse => exact h other set hset instruction hinstruction

/-- The instructions in a set are identifiers. -/
theorem IsInstructionSet.isIdentifier {set : Node} (h : IsInstructionSet set) :
    ∀ instruction ∈ set.childTexts, IsIdentifier instruction := by
  obtain ⟨-, hall⟩ := h
  intro instruction hinstruction
  obtain ⟨node, hnode, rfl⟩ := List.mem_map.1 hinstruction
  obtain ⟨hid⟩ := hall node hnode
  exact hid

/-- **The aliases of a pattern file stand for identifiers.** -/
theorem listsIdentifiers_of_build {program : Node} {table : AliasTable}
    (hprogram : IsProgram program) (h : (AliasTable.build program).result = .ok table) :
    table.ListsIdentifiers := by
  have hfold : ∀ {declarations : List Node} {before : AliasTable},
      (∀ declaration ∈ declarations, IsDeclaration declaration) → before.ListsIdentifiers →
      (declarations.foldlM AliasTable.declare before).result = .ok table →
      table.ListsIdentifiers := by
    intro declarations
    induction declarations with
    | nil =>
      intro before _ hbefore hresult
      obtain rfl := Except.ok.inj hresult
      exact hbefore
    | cons declaration declarations ih =>
      intro before hall hbefore hresult
      rw [List.forall_mem_cons] at hall
      rw [List.foldlM_cons, Logged.result_bind] at hresult
      obtain ⟨next, hnext, hmore⟩ := bind_eq_ok_iff.1 hresult
      refine ih hall.2 ?_ hmore
      obtain ⟨-, hset⟩ := hall.1
      unfold AliasTable.declare at hnext
      dsimp only [Node.children_mk] at hnext
      split at hnext
      case isTrue => simp at hnext
      case isFalse =>
        obtain rfl := Except.ok.inj hnext
        exact hbefore.insert hset.isIdentifier
  have hempty : AliasTable.empty.ListsIdentifiers := fun _ _ hget => by
    simp [AliasTable.get?, AliasTable.empty] at hget
  refine hfold (fun declaration hmem => ?_) hempty h
  obtain ⟨hdeclarations, hrules⟩ := hprogram
  have hkind := List.mem_takeWhile_imp hmem
  rcases List.mem_append.1 ((List.takeWhile_sublist _).subset hmem) with hmem | hmem
  · exact hdeclarations declaration hmem
  · obtain ⟨-, -, -, -⟩ := hrules declaration hmem
    simp at hkind

/-- A set in an element is a set of the grammar. -/
theorem IsElement.isInstructionSet {element body : Node} (h : IsElement element)
    (hbody : element.elementInstruction = .ok body) (hkind : body.kind = .instructionSet) :
    IsInstructionSet body := by
  have hchildren := h.isElementBody
  unfold Node.elementInstruction at hbody
  generalize element.children = children at hchildren hbody
  rcases hchildren with _ | ⟨hset | hone, -⟩
  · obtain rfl := Except.ok.inj hbody
    simp at hkind
  · obtain rfl := Except.ok.inj hbody
    exact hset
  · obtain rfl := Except.ok.inj hbody
    obtain ⟨-⟩ := hone
    simp at hkind

/-- The aliases of a rule stand for identifiers, its own sets included. -/
theorem Binding.Resolves.listsIdentifiers {position used : Nat} {table aliases : AliasTable}
    {elements : List Node} {bindings : List Binding}
    (h : Resolves position table used elements bindings aliases)
    (helements : ∀ element ∈ elements, IsElement element) (htable : table.ListsIdentifiers) :
    aliases.ListsIdentifiers := by
  induction h with
  | done => exact htable
  | named _ _ _ _ _ ih => exact ih (List.forall_mem_cons.1 helements).2 htable
  | single _ _ _ ih => exact ih (List.forall_mem_cons.1 helements).2 htable
  | inlined _ hbody hkind _ ih =>
    rw [List.forall_mem_cons] at helements
    exact ih helements.2 (htable.insert (helements.1.isInstructionSet hbody hkind).isIdentifier)

/-! ## Rules of the language -/

theorem IsElement.exists_displayName {element : Node} (h : IsElement element) :
    ∃ name, element.displayName = .ok name := by
  rcases h with ⟨-, -⟩ | -
  · exact ⟨_, rfl⟩
  · exact ⟨_, rfl⟩

/-- Each element of the grammar is a wildcard, an instruction or a set. -/
theorem IsElement.exists_body {element : Node} (h : IsElement element) :
    ∃ body, element.elementInstruction = .ok body ∧
      (body.kind = .wildcard ∨ body.kind = .instruction ∨ body.kind = .instructionSet) := by
  have hchildren := h.isElementBody
  unfold Node.elementInstruction
  generalize element.children = children at hchildren ⊢
  rcases hchildren with _ | ⟨hset | hone, -⟩
  · exact ⟨_, rfl, .inl rfl⟩
  · obtain ⟨-, -⟩ := hset
    exact ⟨_, rfl, .inr (.inr rfl)⟩
  · obtain ⟨-⟩ := hone
    exact ⟨_, rfl, .inr (.inl rfl)⟩

/-- The match side of a rule consists of elements of the grammar. -/
theorem IsRule.isElement {rule pattern : Node} (h : IsRule rule)
    (hpattern : rule.matchSide = .ok pattern) :
    ∀ element ∈ pattern.children, IsElement element := by
  obtain ⟨-, -, hall, -⟩ := h
  obtain rfl := Except.ok.inj hpattern
  exact hall

namespace Binding

/-- Resolution goes through each element of the grammar. -/
theorem exists_element {element : Node} (h : IsElement element) (found : Resolution)
    (position : Nat) : ∃ next, (found.element position element).result = .ok next := by
  obtain ⟨displayName, hname⟩ := h.exists_displayName
  obtain ⟨body, hbody, hkind⟩ := h.exists_body
  simp only [Resolution.element, Logged.result_bind, Logged.result_ofExcept, hname, hbody]
  dsimp only [bind, Except.bind]
  rcases hkind with hkind | hkind | hkind <;> simp only [hkind]
  · exact ⟨_, rfl⟩
  · split
    · exact ⟨_, rfl⟩
    · exact ⟨_, rfl⟩
  · exact ⟨_, rfl⟩

/-- Resolution goes through each match side of the grammar. -/
theorem exists_elements {elements : List Node} (h : ∀ element ∈ elements, IsElement element)
    (found : Resolution) (position : Nat) :
    ∃ final, (found.elements position elements).result = .ok final := by
  induction elements generalizing found position with
  | nil => exact ⟨found, rfl⟩
  | cons element elements ih =>
    rw [List.forall_mem_cons] at h
    obtain ⟨next, hnext⟩ := exists_element h.1 found position
    obtain ⟨final, hfinal⟩ := ih h.2 next (position + 1)
    refine ⟨final, ?_⟩
    rw [Resolution.elements, Logged.result_bind, hnext]
    exact hfinal

/-- **The bindings of a rule of a pattern file can always be made out.** -/
theorem exists_resolve {rule : Node} (h : IsRule rule) (table : AliasTable) :
    ∃ bindings aliases, (resolve rule table).result = .ok (bindings, aliases) := by
  obtain @⟨_, elements, _, -, -, hall, -⟩ := h
  obtain ⟨final, hfinal⟩ := exists_elements hall ⟨table, 0, []⟩ 0
  refine ⟨final.bindings, final.table, ?_⟩
  rw [resolve, Logged.result_bind]
  refine bind_eq_ok_iff.2 ⟨_, rfl, ?_⟩
  rw [Logged.result_bind]
  exact bind_eq_ok_iff.2 ⟨final, hfinal, rfl⟩

end Binding

end Peephole

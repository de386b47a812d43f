import Peephole.Proofs.C.MatcherText
import Peephole.Proofs.Grammar.TreeLanguage

/-!
# Proofs/Layout/LaidOut — what the lines of a match side are

A match side is laid out element by element with what is known so far threaded through.  `LaidOut`
says the same from the first element on: the lines of an element, then those of the elements behind
it.  All that proofs know of a match side comes from there (`laidOut_of_ofRule`).
-/

namespace Peephole

namespace Layout

/-! ## Captures -/

/-- The highest number given to a local of each name. -/
def numbersOf (uses : List (String × Nat)) (name : String) : Option Nat :=
  (uses.find? (·.1 == name)).map (·.2)

/-- A name that is new in the uses gets its number. -/
theorem numbersOf_append {uses : List (String × Nat)} {name : String}
    (h : numbersOf uses name = none) (number : Nat) :
    numbersOf (uses ++ [(name, number)]) = Function.update (numbersOf uses) name (some number) := by
  funext other
  have hnone := Option.map_eq_none_iff.1 h
  by_cases ho : other = name
  · subst ho
    simp [numbersOf, hnone]
  · have hno : (name == other) = false := by simpa using Ne.symm ho
    rw [Function.update_of_ne ho]
    simp [numbersOf, hno]

/-- A name that is known in the uses gets another number. -/
theorem numbersOf_map {uses : List (String × Nat)} {name : String} {used : Nat}
    (h : numbersOf uses name = some used) (number : Nat) :
    numbersOf (uses.map fun use => if use.1 == name then (name, number) else use)
      = Function.update (numbersOf uses) name (some number) := by
  funext other
  have hkey : ((fun use : String × Nat => use.1 == other) ∘ fun use =>
      if use.1 == name then (name, number) else use) = fun use => use.1 == other := by
    funext use
    by_cases hu : use.1 = name <;> simp [hu]
  rw [numbersOf, List.find?_map, hkey]
  by_cases ho : other = name
  · subst ho
    obtain ⟨use, huse, -⟩ := Option.map_eq_some_iff.1 h
    have hname : use.1 = other := by simpa using List.find?_some huse
    simp [huse, hname]
  · rw [Function.update_of_ne ho, numbersOf]
    cases huse : uses.find? (·.1 == other) with
    | none => rfl
    | some use =>
      have hname : use.1 = other := by simpa using List.find?_some huse
      simp [hname, ho]

theorem numbersOf_eq_none_iff {uses : List (String × Nat)} {name : String} :
    numbersOf uses name = none ↔ name ∉ uses.map (·.1) := by
  rw [numbersOf, Option.map_eq_none_iff, List.find?_eq_none, List.mem_map, not_exists]
  simp only [beq_iff_eq, not_and]

/-- **Capturing arguments under names**: the local of each, and the equalities between them. -/
inductive Capturing (names : List String) : (String → Option Nat) → List String → List String →
    List MatchStep → (String → Option Nat) → Prop where
  | done (numbers : String → Option Nat) : Capturing names numbers [] [] [] numbers
  | first {numbers after : String → Option Nat} {name : String} {more locals : List String}
    {equalities : List MatchStep} (hnew : numbers name = none)
    (hmore : Capturing names (Function.update numbers name (some 1)) more locals equalities after) :
    Capturing names numbers (name :: more) (argumentLocal name :: locals) equalities after
  | again {numbers after : String → Option Nat} {name : String} {used : Nat}
    {more locals : List String} {equalities : List MatchStep} (hused : numbers name = some used)
    (hmore : Capturing names
      (Function.update numbers name (some (freshNumber names name used))) more locals
      equalities after) :
    Capturing names numbers (name :: more)
      (argumentLocal (name ++ "_" ++ toString (freshNumber names name used)) :: locals)
      (.equal (argumentLocal (name ++ "_" ++ toString (freshNumber names name used)))
        (argumentLocal name) :: equalities) after

/-- Going through the captures of an element yields their locals and equalities, behind those
before. -/
theorem capturing_of_addAll {names : List String} {kind : Kind} : ∀ {nodes : List Node}
    {captures after : Captures}, captures.addAll names kind nodes = .ok after →
    ∃ locals equalities, after.locals = captures.locals ++ locals ∧
      after.equalities = captures.equalities ++ equalities ∧
      Capturing names (numbersOf captures.uses) (nodes.map Node.text) locals equalities
        (numbersOf after.uses)
  | [], captures, after, h => by
    obtain rfl := Except.ok.inj h
    exact ⟨[], [], by simp, by simp, .done _⟩
  | node :: nodes, captures, after, h => by
    rw [Captures.addAll] at h
    split at h
    case isFalse => simp at h
    case isTrue =>
      obtain ⟨locals, equalities, hlocals, hequalities, hmore⟩ := capturing_of_addAll h
      unfold Captures.add at hlocals hequalities hmore
      split at hlocals
      case h_1 hfind =>
        rw [hfind] at hequalities hmore
        have hnew : numbersOf captures.uses node.text = none := by simp [numbersOf, hfind]
        rw [numbersOf_append hnew] at hmore
        exact ⟨_, _, by rw [hlocals, List.append_assoc]; rfl, hequalities, .first hnew hmore⟩
      case h_2 used hfind =>
        rw [hfind] at hequalities hmore
        have hused : numbersOf captures.uses node.text = some used := by simp [numbersOf, hfind]
        rw [numbersOf_map hused] at hmore
        exact ⟨_, _, by rw [hlocals, List.append_assoc]; rfl,
          by rw [hequalities, List.append_assoc]; rfl, .again hused hmore⟩

/-! ## Elements -/

/-- **The cursor of an element at a position**, and the names of elements taken with it. -/
inductive PlacesCursor (position : Nat) (taken : List String) (node : Node) :
    String → List String → Prop where
  | named (hkind : node.kind = .namedElement) (hnew : node.text ∉ taken) :
    PlacesCursor position taken node (cursorLocal node.text) (taken ++ [node.text])
  | unnamed (hkind : node.kind = .unnamedElement) :
    PlacesCursor position taken node (cursorLocal (toString (position + 1))) taken

/-- The lines of an element. -/
def elementSteps (previous : Option String) (cursor : String) (locals : List String)
    (opcode : Option Opcode) (equalities : List MatchStep) : List MatchStep :=
  .cursor cursor previous :: (locals.map .argument ++ guardStep cursor locals opcode :: equalities)

/-- **The lines of elements**, the first of which stands at a position, behind the cursor of the
previous one. -/
inductive LaidOut (names : List String) (bindings : List Binding) : Nat → Option String →
    List String → (String → Option Nat) → List Node → List MatchStep → List Element →
    (String → Option Nat) → Prop where
  | done (position : Nat) (previous : Option String) (taken : List String)
    (numbers : String → Option Nat) :
    LaidOut names bindings position previous taken numbers [] [] [] numbers
  | element {position : Nat} {previous : Option String} {taken taken' : List String}
    {numbers numbers' after : String → Option Nat} {node : Node} {nodes : List Node}
    {displayName cursor : String} {locals : List String} {equalities steps : List MatchStep}
    {opcode : Option Opcode} {elements : List Element}
    (hname : node.displayName = .ok displayName)
    (hcursor : PlacesCursor position taken node cursor taken')
    (hcaptures : Capturing names numbers (node.childTexts.drop 1) locals equalities numbers')
    (hopcode : elementOpcode bindings position node (!locals.isEmpty) = .ok opcode)
    (hmore : LaidOut names bindings (position + 1) (some cursor) taken' numbers' nodes steps
      elements after) :
    LaidOut names bindings position previous taken numbers (node :: nodes)
      (elementSteps previous cursor locals opcode equalities ++ steps)
      (⟨displayName, node.kind = .namedElement, cursor, opcode⟩ :: elements) after

/-- The names of the elements laid out. -/
def takenBy (elements : List Element) : List String :=
  (elements.filter Element.named).map Element.displayName

/-- The cursor computed for an element is the one it is placed under; its name is taken from then
on. -/
theorem placesCursor_of_cursor {draft : Draft} {position : Nat} {node : Node}
    {displayName cursor : String} {opcode : Option Opcode}
    (hname : node.displayName = .ok displayName)
    (h : draft.cursor position node displayName = .ok cursor) :
    PlacesCursor position (takenBy draft.elements) node cursor
      (takenBy (draft.elements ++ [⟨displayName, node.kind = .namedElement, cursor, opcode⟩])) := by
  unfold Node.displayName at hname
  unfold Draft.cursor at h
  split at hname
  case h_1 hkind =>
    obtain rfl := Except.ok.inj hname
    rw [if_pos hkind] at h
    split at h
    case isTrue => simp at h
    case isFalse hnew =>
      obtain rfl := Except.ok.inj h
      have hnew' : node.text ∉ takenBy draft.elements := by
        simpa [takenBy] using hnew
      have htaken : takenBy (draft.elements ++ [⟨node.text, node.kind = .namedElement,
          "instr_" ++ node.text, opcode⟩]) = takenBy draft.elements ++ [node.text] := by
        simp [takenBy, hkind]
      rw [htaken]
      exact .named hkind hnew'
  case h_2 hkind =>
    rw [if_neg (by simp [hkind])] at h
    obtain rfl := Except.ok.inj h
    have htaken : takenBy (draft.elements ++ [⟨displayName, node.kind = .namedElement,
        "instr_" ++ toString (position + 1), opcode⟩]) = takenBy draft.elements := by
      simp [takenBy, hkind]
    rw [htaken]
    exact .unnamed hkind
  case h_3 => simp at hname

/-- Going through the elements lays them out, behind those before. -/
theorem laidOut_of_addAll {names : List String} {bindings : List Binding} : ∀ {nodes : List Node}
    {position : Nat} {draft final : Draft},
    draft.addAll names bindings position nodes = .ok final →
    ∃ steps elements, final.steps = draft.steps ++ steps ∧
      final.elements = draft.elements ++ elements ∧
      LaidOut names bindings position (draft.elements.getLast?.map Element.cursor)
        (takenBy draft.elements) (numbersOf draft.uses) nodes steps elements
        (numbersOf final.uses)
  | [], position, draft, final, h => by
    obtain rfl := Except.ok.inj h
    exact ⟨[], [], by simp, by simp, .done _ _ _ _⟩
  | node :: nodes, position, draft, final, h => by
    obtain ⟨next, hnext, hmore⟩ := bind_eq_ok_iff.1 h
    obtain ⟨steps, elements, hsteps, helements, hlaid⟩ := laidOut_of_addAll hmore
    obtain ⟨displayName, hname, hnext⟩ := bind_eq_ok_iff.1 hnext
    obtain ⟨cursor, hcursor, hnext⟩ := bind_eq_ok_iff.1 hnext
    obtain ⟨captures, hcaptures, hnext⟩ := bind_eq_ok_iff.1 hnext
    obtain ⟨opcode, hopcode, hnext⟩ := bind_eq_ok_iff.1 hnext
    obtain rfl := Except.ok.inj hnext
    obtain ⟨locals, equalities, hlocals, hequalities, hcapturing⟩ := capturing_of_addAll hcaptures
    rw [List.nil_append] at hlocals hequalities
    rw [hlocals] at hopcode
    rw [List.map_drop] at hcapturing
    dsimp only at hsteps helements hlaid
    rw [List.getLast?_append, List.getLast?_singleton, Option.some_or] at hlaid
    refine ⟨_, _, ?_, ?_, .element hname (placesCursor_of_cursor hname hcursor) hcapturing hopcode
      hlaid⟩
    · rw [hsteps, hlocals, hequalities]
      simp [elementSteps]
    · rw [helements, List.append_assoc]
      rfl

/-- **The lines of a match side, from the first element on.** -/
theorem laidOut_of_ofRule {rule pattern : Node} {bindings : List Binding} {side : MatchSide}
    (hpattern : rule.matchSide = .ok pattern) (h : MatchSide.ofRule rule bindings = .ok side) :
    ∃ numbers, (∀ name, name ∈ side.layout.captures ↔ numbers name ≠ none) ∧
      LaidOut (capturedNames pattern.children) bindings 0 none [] (fun _ => none)
        pattern.children side.steps side.layout.elements numbers := by
  obtain ⟨pattern', hpattern', h⟩ := bind_eq_ok_iff.1 h
  obtain rfl := Except.ok.inj (hpattern.symm.trans hpattern')
  obtain ⟨draft, hdraft, h⟩ := bind_eq_ok_iff.1 h
  split at h
  case isTrue => simp at h
  case isFalse =>
    obtain rfl := Except.ok.inj h
    obtain ⟨steps, elements, hsteps, helements, hlaid⟩ := laidOut_of_addAll hdraft
    rw [List.nil_append] at hsteps helements
    refine ⟨numbersOf draft.uses, fun name => ?_, ?_⟩
    · rw [ne_eq, numbersOf_eq_none_iff, not_not]
    · subst hsteps helements
      exact hlaid

/-! ## Elements of the language -/

section Language

variable {names : List String} {bindings : List Binding} {position : Nat} {previous : Option String}
  {taken taken' : List String} {numbers after : String → Option Nat} {node : Node}
  {nodes : List Node} {steps : List MatchStep} {elements : List Element} {cursor : String}

/-- The captures of an element are words. -/
theorem wordChars_captures (h : IsElement node) :
    ∀ name ∈ node.childTexts.drop 1, WordChars name := by
  have hbody := h.isElementBody
  unfold Node.childTexts
  generalize node.children = children at hbody ⊢
  rcases hbody with _ | @⟨_, captures, -, hall⟩
  · simp
  · intro name hname
    obtain ⟨capture, hcapture, rfl⟩ := List.mem_map.1 (by simpa using hname)
    obtain ⟨hid⟩ := hall capture hcapture
    exact hid.chars

/-- **What an element asks for**: nothing, the instruction of a slot, or the opcode it names. -/
theorem elementOpcode_cases {hasCaptures : Bool} {opcode : Option Opcode}
    (helement : IsElement node)
    (h : elementOpcode bindings position node hasCaptures = .ok opcode) :
    (node.children = [.leaf .wildcard ""] ∧ opcode = none) ∨
    ∃ body captures, node.children = body :: captures ∧ body.kind ≠ .wildcard ∧
      ((∃ slot, Binding.slotAt? bindings position = some slot ∧ opcode = some (.slot slot)) ∨
        Binding.slotAt? bindings position = none ∧ opcode = some (.literal body.text) ∧
          IsIdentifier body.text) := by
  have hbody := helement.isElementBody
  obtain ⟨instruction, hinstruction, h⟩ := bind_eq_ok_iff.1 h
  unfold Node.elementInstruction at hinstruction
  generalize node.children = children at hbody hinstruction ⊢
  rcases hbody with _ | @⟨body, captures, hset | hone, -⟩
  · obtain rfl := Except.ok.inj hinstruction
    dsimp only [Node.kind_mk] at h
    split at h
    case isTrue => simp at h
    case isFalse => exact .inl ⟨rfl, (Except.ok.inj h).symm⟩
  · obtain rfl := Except.ok.inj hinstruction
    obtain ⟨-, -⟩ := hset
    refine .inr ⟨_, _, rfl, by simp, .inl ?_⟩
    dsimp only [Node.kind_mk] at h
    split at h
    case h_1 slot hslot => exact ⟨slot, hslot, (Except.ok.inj h).symm⟩
    case h_2 => simp at h
  · obtain rfl := Except.ok.inj hinstruction
    obtain ⟨hid⟩ := hone
    refine .inr ⟨_, _, rfl, by simp, ?_⟩
    dsimp only [Node.kind_mk] at h
    split at h
    case h_1 slot hslot => exact .inl ⟨slot, hslot, (Except.ok.inj h).symm⟩
    case h_2 hslot => exact .inr ⟨hslot, (Except.ok.inj h).symm, hid⟩

/-- A cursor carries the name of its element, or the number. -/
theorem PlacesCursor.eq_cursorLocal (helement : IsElement node)
    (h : PlacesCursor position taken node cursor taken') :
    ∃ name, cursor = cursorLocal name ∧ WordChars name := by
  rcases h with ⟨hkind, -⟩ | -
  · obtain ⟨hid, -⟩ | - := helement
    · exact ⟨_, rfl, hid.chars⟩
    · simp at hkind
  · exact ⟨_, rfl, wordChars_toString _⟩

/-- Cursors are locals of their own sort. -/
theorem LaidOut.cursors (helements : ∀ node ∈ nodes, IsElement node)
    (h : LaidOut names bindings position previous taken numbers nodes steps elements after) :
    ∀ element ∈ elements, ∃ name, element.cursor = cursorLocal name ∧ WordChars name := by
  induction h with
  | done => simp
  | element _ hcursor _ _ _ ih =>
    rw [List.forall_mem_cons] at helements ⊢
    exact ⟨hcursor.eq_cursorLocal helements.1, ih helements.2⟩

/-- Each element is laid out once. -/
theorem LaidOut.length_eq
    (h : LaidOut names bindings position previous taken numbers nodes steps elements after) :
    elements.length = nodes.length := by
  induction h with
  | done => rfl
  | element _ _ _ _ _ ih => rw [List.length_cons, List.length_cons, ih]

/-- **What becomes of an element**: it keeps its name, and its guard asks for its opcode. -/
theorem LaidOut.exists_element
    (h : LaidOut names bindings position previous taken numbers nodes steps elements after)
    {index : Nat} (hnode : nodes[index]? = some node) :
    ∃ element locals, elements[index]? = some element ∧
      node.displayName = .ok element.displayName ∧
      element.named = decide (node.kind = .namedElement) ∧
      elementOpcode bindings (position + index) node (!locals.isEmpty) = .ok element.opcode ∧
      guardStep element.cursor locals element.opcode ∈ steps := by
  induction h generalizing index with
  | done => simp at hnode
  | @element _ _ _ _ _ _ _ _ _ _ _ locals _ _ _ _ hname _ _ hopcode _ ih =>
    cases index with
    | zero =>
      obtain rfl := Option.some.inj hnode
      refine ⟨_, locals, rfl, hname, rfl, hopcode, ?_⟩
      simp [elementSteps]
    | succ index =>
      obtain ⟨element, locals, helement, hdisplay, hnamed, hasked, hguard⟩ := ih hnode
      refine ⟨element, locals, helement, hdisplay, hnamed, ?_, List.mem_append_right _ hguard⟩
      rwa [Nat.add_assoc, Nat.add_comm 1] at hasked

/-- The opcode that the guard of an element asks for: that of its slot, or the one it names. -/
theorem LaidOut.exists_opcode
    (h : LaidOut names bindings position previous taken numbers nodes steps elements after)
    {index : Nat} (hnode : nodes[index]? = some node) (helement : IsElement node) {body : Node}
    (hbody : node.elementInstruction = .ok body) (hkind : body.kind ≠ .wildcard) :
    ∃ element locals opcode, elements[index]? = some element ∧ element.opcode = some opcode ∧
      .opcode opcode element.cursor locals ∈ steps ∧
      opcode = (Binding.slotAt? bindings (position + index)).elim (.literal body.text) .slot := by
  obtain ⟨element, locals, hplaced, -, -, hopcode, hguard⟩ := h.exists_element hnode
  rcases elementOpcode_cases helement hopcode with
    ⟨hchildren, -⟩ | ⟨body', captures, hchildren, -, hasked⟩
  · rw [Node.elementInstruction, hchildren] at hbody
    obtain rfl := Except.ok.inj hbody
    exact absurd rfl hkind
  · rw [Node.elementInstruction, hchildren] at hbody
    obtain rfl := Except.ok.inj hbody
    rcases hasked with ⟨slot, hslot, heq⟩ | ⟨hslot, heq, -⟩
    · rw [heq] at hguard
      exact ⟨element, locals, _, hplaced, heq, hguard, by rw [hslot]; rfl⟩
    · rw [heq] at hguard
      exact ⟨element, locals, _, hplaced, heq, hguard, by rw [hslot]; rfl⟩

theorem update_ne_none_iff (numbers : String → Option Nat) (captured : String) (number : Nat)
    (name : String) : Function.update numbers captured (some number) name ≠ none ↔
      numbers name ≠ none ∨ name = captured := by
  by_cases hname : name = captured
  · subst hname
    simp
  · simp [hname]

/-- The names known after captures: those known before, and those captured. -/
theorem Capturing.ne_none_iff {captured locals : List String} {equalities : List MatchStep}
    (h : Capturing names numbers captured locals equalities after) (name : String) :
    after name ≠ none ↔ numbers name ≠ none ∨ name ∈ captured := by
  induction h with
  | done => simp
  | first _ _ ih => exact ih.trans (by rw [update_ne_none_iff, or_assoc, List.mem_cons])
  | again _ _ ih => exact ih.trans (by rw [update_ne_none_iff, or_assoc, List.mem_cons])

/-- A name is numbered behind some elements if it was before, or if they capture it. -/
theorem LaidOut.ne_none_iff
    (h : LaidOut names bindings position previous taken numbers nodes steps elements after)
    (name : String) : after name ≠ none ↔ numbers name ≠ none ∨ name ∈ capturedNames nodes := by
  induction h with
  | done => simp [capturedNames]
  | element _ _ hcaptures _ _ ih =>
    refine ih.trans ?_
    rw [hcaptures.ne_none_iff, or_assoc]
    simp only [capturedNames, List.flatMap_cons, List.mem_append]

/-- A name that is taken is not given again. -/
theorem LaidOut.not_mem_taken
    (h : LaidOut names bindings position previous taken numbers nodes steps elements after)
    {index : Nat} (hnode : nodes[index]? = some node) (hkind : node.kind = .namedElement) :
    node.text ∉ taken := by
  induction h generalizing index with
  | done => simp at hnode
  | element _ hcursor _ _ _ ih =>
    cases index with
    | zero =>
      obtain rfl := Option.some.inj hnode
      rcases hcursor with ⟨-, hnew⟩ | hunnamed
      · exact hnew
      · simp [hkind] at hunnamed
    | succ index =>
      have hlater := ih hnode
      rcases hcursor with _ | _
      · exact fun hmem => hlater (List.mem_append_left _ hmem)
      · exact hlater

/-- The name of an element is taken where the later ones stand. -/
theorem PlacesCursor.text_ne {index : Nat} {later : Node}
    (hcursor : PlacesCursor position taken node cursor taken')
    (h : LaidOut names bindings (position + 1) previous taken' numbers nodes steps elements after)
    (hkind : node.kind = .namedElement) (hlater : nodes[index]? = some later)
    (hlaterKind : later.kind = .namedElement) : node.text ≠ later.text := by
  intro heq
  have hnew := h.not_mem_taken hlater hlaterKind
  rcases hcursor with _ | hunnamed
  · exact hnew (List.mem_append_right _ (by simp [heq]))
  · simp [hkind] at hunnamed

/-- **Elements have names of their own.** -/
theorem LaidOut.index_eq
    (h : LaidOut names bindings position previous taken numbers nodes steps elements after)
    {index index' : Nat} {other : Node} (hnode : nodes[index]? = some node)
    (hother : nodes[index']? = some other) (hkind : node.kind = .namedElement)
    (hkind' : other.kind = .namedElement) (htext : node.text = other.text) : index = index' := by
  induction h generalizing index index' with
  | done => simp at hnode
  | element _ hcursor _ _ hmore ih =>
    match index, index' with
    | 0, 0 => rfl
    | 0, later + 1 =>
      obtain rfl := Option.some.inj hnode
      exact absurd htext (hcursor.text_ne hmore hkind hother hkind')
    | earlier + 1, 0 =>
      obtain rfl := Option.some.inj hother
      exact absurd htext.symm (hcursor.text_ne hmore hkind' hnode hkind)
    | earlier + 1, later + 1 => exact congrArg (· + 1) (ih hnode hother)

/-- So a name finds the element that bears it. -/
theorem LaidOut.find?_eq_getElem?
    (h : LaidOut names bindings position previous taken numbers nodes steps elements after)
    {index : Nat} (hnode : nodes[index]? = some node) (hkind : node.kind = .namedElement) :
    elements.find? (fun element => element.named && element.displayName == node.text)
      = elements[index]? := by
  induction h generalizing index with
  | done => simp at hnode
  | @element _ _ _ _ _ _ _ first _ _ _ _ _ _ _ _ hname hcursor _ _ hmore ih =>
    cases index with
    | zero =>
      obtain rfl := Option.some.inj hnode
      rw [Node.displayName, hkind] at hname
      obtain rfl := Except.ok.inj hname
      rw [List.find?_cons_of_pos (by simp [hkind])]
      rfl
    | succ index =>
      rw [List.find?_cons_of_neg, ih hnode]
      · rfl
      · by_cases hfirst : first.kind = .namedElement
        · have hne := hcursor.text_ne hmore hfirst hnode hkind
          rw [Node.displayName, hfirst] at hname
          obtain rfl := Except.ok.inj hname
          simpa [hfirst] using hne
        · simp [hfirst]

/-- The names that find an element are those of the match side. -/
theorem LaidOut.isSome_find?_iff
    (h : LaidOut names bindings position previous taken numbers nodes steps elements after)
    (name : String) :
    (elements.find? fun element => element.named && element.displayName == name).isSome = true ↔
      name ∈ Node.elementNames nodes := by
  induction h with
  | done => simp [Node.elementNames]
  | @element _ _ _ _ _ _ _ node _ _ _ _ _ _ _ _ hname _ _ _ _ ih =>
    by_cases hkind : node.kind = .namedElement
    · rw [Node.displayName, hkind] at hname
      obtain rfl := Except.ok.inj hname
      simp only [Node.elementNames] at ih
      by_cases hsame : node.text = name
      · simp [Node.elementNames, hkind, hsame]
      · simp [Node.elementNames, hkind, hsame, Ne.symm hsame, ← ih]
    · simp only [Node.elementNames] at ih
      simp [Node.elementNames, hkind, ← ih]

/-- **An element has the name that the match side gives it**, so both find the same one. -/
theorem LaidOut.find?_named
    (h : LaidOut names bindings position previous taken numbers nodes steps elements after)
    {name : String} {element : Element}
    (hfind : elements.find? (fun element => element.named && element.displayName == name)
      = some element) {α : Type} {input : List α} (hle : nodes.length ≤ input.length) :
    ∃ index : Nat, elements[index]? = some element ∧
      ((nodes.zip input).find? fun pair =>
        pair.1.kind = .namedElement && pair.1.text == name).map (·.2) = input[index]? := by
  induction h generalizing input with
  | done => simp at hfind
  | @element _ _ _ _ _ _ _ node _ displayName _ _ _ _ _ _ hname _ _ _ _ ih =>
    obtain ⟨first, rest, rfl⟩ : ∃ first rest, input = first :: rest :=
      List.exists_cons_of_length_pos (by simp at hle; omega)
    have hsame : (decide (node.kind = .namedElement) && displayName == name)
        = (decide (node.kind = .namedElement) && node.text == name) := by
      by_cases hkind : node.kind = .namedElement
      · rw [Node.displayName, hkind] at hname
        rw [Except.ok.inj hname]
      · simp [hkind]
    rw [List.find?_cons] at hfind
    rw [List.zip_cons_cons, List.find?_cons]
    dsimp only at hfind ⊢
    rw [hsame] at hfind
    split at hfind
    case h_1 hyes =>
      refine ⟨0, hfind, ?_⟩
      rw [hyes]
      rfl
    case h_2 hno =>
      obtain ⟨index, hindex, hrest⟩ := ih hfind (Nat.le_of_succ_le_succ hle)
      refine ⟨index + 1, hindex, ?_⟩
      rw [hno]
      exact hrest

/-- **The captured names are those that the elements capture.** -/
theorem isCaptured_iff {rule pattern : Node} {side : MatchSide}
    (hpattern : rule.matchSide = .ok pattern) (h : MatchSide.ofRule rule bindings = .ok side)
    (name : String) :
    side.layout.isCaptured name = true ↔ name ∈ capturedNames pattern.children := by
  obtain ⟨numbers, hcaptures, hlaid⟩ := laidOut_of_ofRule hpattern h
  rw [isCaptured, List.contains_iff_mem, hcaptures, hlaid.ne_none_iff]
  simp

/-- **The elements that the replacement finds are those with a name.** -/
theorem isSome_named?_iff {rule pattern : Node} {side : MatchSide}
    (hpattern : rule.matchSide = .ok pattern) (h : MatchSide.ofRule rule bindings = .ok side)
    (name : String) :
    (side.layout.named? name).isSome = true ↔ name ∈ Node.elementNames pattern.children := by
  obtain ⟨numbers, -, hlaid⟩ := laidOut_of_ofRule hpattern h
  exact hlaid.isSome_find?_iff name

end Language

end Layout

end Peephole

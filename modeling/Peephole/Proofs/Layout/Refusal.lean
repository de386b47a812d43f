import Peephole.Proofs.Binding.Resolution
import Peephole.Proofs.Layout.LaidOut

/-!
# Proofs/Layout/Refusal — which match sides cannot be laid out

Laying out an element can go wrong in several ways, and for the elements of a rule that was read and
resolved all but one are out of the question: its captures are names, a wildcard has none, and a set
has its slot.  What is left is a name that an earlier element has (`add_eq_error`), so a match side
is refused for a repeated name and for nothing else (`repeatedName_of_ofRule`).
-/

namespace Peephole

namespace Layout

section Element

variable {names : List String} {bindings : List Binding} {position : Nat} {draft next : Draft}
  {node : Node} {nodes : List Node} {fault : Fault}

/-- Captures of the grammar are never refused. -/
theorem Captures.exists_addAll (h : ∀ node ∈ nodes, IsCapture node) (names : List String)
    (kind : Kind) (captures : Captures) :
    ∃ after, captures.addAll names kind nodes = .ok after := by
  induction nodes generalizing captures with
  | nil => exact ⟨captures, rfl⟩
  | cons node nodes ih =>
    rw [List.forall_mem_cons] at h
    obtain ⟨after, hafter⟩ := ih h.2 (captures.add names node.text)
    refine ⟨after, ?_⟩
    obtain ⟨-⟩ := h.1
    exact hafter

/-- An element of the language has its captures and its opcode, if a set has its slot. -/
theorem exists_captures (helement : IsElement node)
    (hbound : ∀ body, node.elementInstruction = .ok body → body.kind = .instructionSet →
      (Binding.slotAt? bindings position).isSome = true) (uses : List (String × Nat)) :
    ∃ captures opcode,
      Captures.addAll names node.kind ⟨uses, [], []⟩ (node.children.drop 1) = .ok captures ∧
      elementOpcode bindings position node (!captures.locals.isEmpty) = .ok opcode := by
  have hbody := helement.isElementBody
  unfold elementOpcode
  unfold Node.elementInstruction at hbound ⊢
  generalize node.children = children at hbody hbound ⊢
  rcases hbody with _ | @⟨body, captures, hasks, hall⟩
  · exact ⟨_, none, rfl, rfl⟩
  · obtain ⟨after, hafter⟩ := Captures.exists_addAll hall names node.kind ⟨uses, [], []⟩
    refine ⟨after, ?_⟩
    rcases hasks with hset | hone
    · obtain ⟨-, -⟩ := hset
      obtain ⟨slot, hslot⟩ := Option.isSome_iff_exists.1 (hbound _ rfl rfl)
      refine ⟨some (.slot slot), hafter, ?_⟩
      simp only [bind, Except.bind, Node.kind_mk, hslot]
    · obtain ⟨-⟩ := hone
      cases hslot : Binding.slotAt? bindings position with
      | none => exact ⟨_, hafter, rfl⟩
      | some slot => exact ⟨_, hafter, rfl⟩

/-- **An element is refused for its name, if an earlier one has it**, and for nothing else. -/
theorem add_eq_error (helement : IsElement node)
    (hbound : ∀ body, node.elementInstruction = .ok body → body.kind = .instructionSet →
      (Binding.slotAt? bindings position).isSome = true)
    (h : draft.add names bindings position node = .error fault) :
    node.kind = .namedElement ∧ node.text ∈ takenBy draft.elements ∧
      fault = .malformed .namedElement (.repeatedName node.text) := by
  obtain ⟨captures, opcode, hcaptures, hopcode⟩ :=
    @exists_captures names bindings position node helement hbound draft.uses
  obtain ⟨displayName, hname⟩ := helement.exists_displayName
  rw [Draft.add, hname] at h
  change draft.cursor position node displayName >>= _ = _ at h
  rcases bind_eq_error_iff.1 h with h | ⟨cursor, -, h⟩
  · unfold Draft.cursor at h
    split at h
    case isTrue hkind =>
      rw [Node.displayName, hkind] at hname
      obtain rfl := Except.ok.inj hname
      split at h
      case isTrue htaken =>
        refine ⟨hkind, ?_, by rw [← Except.error.inj h, hkind]⟩
        simpa [takenBy, and_assoc] using htaken
      case isFalse => cases h
    case isFalse => cases h
  · rw [hcaptures] at h
    change elementOpcode bindings position node (!captures.locals.isEmpty) >>= _ = _ at h
    rw [hopcode] at h
    cases h

theorem elementNames_cons (node : Node) (nodes : List Node) :
    Node.elementNames (node :: nodes) = Node.elementNames [node] ++ Node.elementNames nodes := by
  simp only [Node.elementNames, ← List.map_append, ← List.filter_append, List.singleton_append]

/-- An element takes its name. -/
theorem takenBy_of_add (h : draft.add names bindings position node = .ok next) :
    takenBy next.elements = takenBy draft.elements ++ Node.elementNames [node] := by
  obtain ⟨displayName, hname, h⟩ := bind_eq_ok_iff.1 h
  obtain ⟨cursor, -, h⟩ := bind_eq_ok_iff.1 h
  obtain ⟨captures, -, h⟩ := bind_eq_ok_iff.1 h
  obtain ⟨opcode, -, h⟩ := bind_eq_ok_iff.1 h
  obtain rfl := Except.ok.inj h
  by_cases hkind : node.kind = .namedElement
  · rw [Node.displayName, hkind] at hname
    obtain rfl := Except.ok.inj hname
    simp [takenBy, Node.elementNames, hkind]
  · simp [takenBy, Node.elementNames, hkind]

/-- **Elements are refused for a repeated name**, those before them included. -/
theorem addAll_eq_error (helements : ∀ node ∈ nodes, IsElement node)
    (hbound : ∀ index node body, nodes[index]? = some node → node.elementInstruction = .ok body →
      body.kind = .instructionSet →
      (Binding.slotAt? bindings (position + index)).isSome = true)
    (h : draft.addAll names bindings position nodes = .error fault) :
    ∃ name, fault = .malformed .namedElement (.repeatedName name) ∧
      2 ≤ (takenBy draft.elements ++ Node.elementNames nodes).count name := by
  induction nodes generalizing draft position with
  | nil => cases h
  | cons node nodes ih =>
    rw [List.forall_mem_cons] at helements
    rw [elementNames_cons, ← List.append_assoc]
    rcases bind_eq_error_iff.1 h with h | ⟨next, hnext, h⟩
    · obtain ⟨hkind, htaken, rfl⟩ := add_eq_error helements.1 (hbound 0 node · rfl) h
      refine ⟨node.text, rfl, ?_⟩
      have hearlier := List.count_pos_iff.2 htaken
      have hown : Node.elementNames [node] = [node.text] := by simp [Node.elementNames, hkind]
      rw [hown, List.count_append, List.count_append, List.count_singleton_self]
      omega
    · rw [← takenBy_of_add hnext]
      refine ih helements.2 (fun index node body hnode => ?_) h
      rw [Nat.add_assoc, Nat.add_comm 1]
      exact hbound (index + 1) node body hnode

end Element

/-- **A match side is refused for a repeated name**, and for nothing else. -/
theorem repeatedName_of_ofRule {rule pattern : Node} {table aliases : AliasTable}
    {bindings : List Binding} {fault : Fault} (hrule : IsRule rule)
    (hpattern : rule.matchSide = .ok pattern)
    (hresolve : (Binding.resolve rule table).result = .ok (bindings, aliases))
    (h : MatchSide.ofRule rule bindings = .error fault) :
    ∃ name, fault = .malformed .namedElement (.repeatedName name) ∧
      2 ≤ (Node.elementNames pattern.children).count name := by
  have hresolves := Binding.resolves_of_resolve hpattern hresolve
  rw [MatchSide.ofRule, hpattern] at h
  change Draft.addAll _ bindings 0 ⟨[], [], []⟩ pattern.children >>= _ = _ at h
  rcases bind_eq_error_iff.1 h with h | ⟨draft, hdraft, hdone⟩
  · refine addAll_eq_error (hrule.isElement hpattern)
      (fun index node body hnode hbody hkind => ?_) h
    rw [Binding.isSome_slotAt?_iff]
    exact (hresolves.bound_iff hnode hbody).2 (.inl hkind)
  · -- A rule has elements, and each is laid out.
    obtain ⟨steps, elements, -, helements, hlaid⟩ := laidOut_of_addAll hdraft
    have hlength := hlaid.length_eq
    obtain ⟨-, hne, -, -⟩ := hrule
    obtain rfl := Except.ok.inj hpattern
    split at hdone
    case isTrue hempty =>
      rw [hempty, List.nil_append] at helements
      rw [← helements] at hlength
      exact absurd (List.length_eq_zero_iff.1 hlength.symm) hne
    case isFalse => cases hdone

end Layout

end Peephole

import Mathlib.Data.List.Nodup
import Peephole.Proofs.Binding.Build
import Peephole.Proofs.Expansion.Emission

/-!
# Proofs/Binding/Growth — resolution adds an alias for every set, and nothing else

The table grows while the match side is walked and is consulted by the same walk.  What keeps the
aliases of the file safe is that a set gets a number above all numbers given before it, whose alias
is free (`Numbered`).  So the table of a rule is that of its file with one new alias for each set
written, in order, and every binding finds its alias in it (`resolve_only_adds`).
-/

namespace Peephole

namespace AliasTable

variable {table : AliasTable} {name : String}

/-- A new name makes the table one larger. -/
theorem size_insert (h : table.contains name = false) (instructions : List String) :
    (table.insert name instructions).size = table.size + 1 := by
  have hkept : table.entries.filter (·.1 != name) = table.entries := by
    refine List.filter_eq_self.2 fun entry hentry => bne_iff_ne.2 ?_
    rintro rfl
    have hmem : entry.1 ∈ table.entries.map (·.1) := List.mem_map_of_mem hentry
    rw [← List.contains_iff_mem, ← contains_eq_contains_map, h] at hmem
    cases hmem
  exact (List.length_append ..).trans (by rw [hkept]; rfl)

/-- A new alias stands beside those there were. -/
theorem get?_insert_eq_some_iff (h : table.contains name = false) {instructions : List String}
    {other : String} {set : List String} :
    (table.insert name instructions).get? other = some set ↔
      table.get? other = some set ∨ other = name ∧ set = instructions.eraseDups := by
  rw [get?_insert, firstOccurrences_nil_eq_eraseDups]
  by_cases hother : other = name
  · subst hother
    have hnone : table.get? other = none := by simpa [contains] using h
    simp [hnone, eq_comm]
  · simp [hother]

end AliasTable

namespace Binding

/-! ## Elements that list a set -/

/-- The element at an index lists a set of its own. -/
def ListsSet (elements : List Node) (index : Nat) (body : Node) : Prop :=
  ∃ element, elements[index]? = some element ∧ element.elementInstruction = .ok body ∧
    body.kind = .instructionSet

section

variable {element first : Node} {elements : List Node}

/-- A set is written in the first element, or in one behind it. -/
theorem listsSet_cons (hfirst : element.elementInstruction = .ok first) {index : Nat}
    {body : Node} :
    ListsSet (element :: elements) index body ↔
      (index = 0 ∧ body = first ∧ first.kind = .instructionSet) ∨
        ∃ behind, index = behind + 1 ∧ ListsSet elements behind body := by
  constructor
  · rintro ⟨found, hfound, hbody, hkind⟩
    cases index with
    | zero =>
      obtain rfl := Option.some.inj hfound
      obtain rfl := Except.ok.inj (hfirst.symm.trans hbody)
      exact .inl ⟨rfl, rfl, hkind⟩
    | succ behind => exact .inr ⟨behind, rfl, found, hfound, hbody, hkind⟩
  · rintro (⟨rfl, rfl, hkind⟩ | ⟨behind, rfl, hset⟩)
    · exact ⟨element, rfl, hfirst, hkind⟩
    · exact hset

theorem listsSet_cons_of_ne (hfirst : element.elementInstruction = .ok first)
    (hkind : first.kind ≠ .instructionSet) {index : Nat} {body : Node} :
    ListsSet (element :: elements) index body ↔
      ∃ behind, index = behind + 1 ∧ ListsSet elements behind body :=
  (listsSet_cons hfirst).trans (or_iff_right fun hset => hkind hset.2.2)

end

/-! ## Numbers -/

/-- The number of an element, and those of the elements behind it. -/
def ahead (first : Nat) (number : Nat → Nat) : Nat → Nat
  | 0 => first
  | index + 1 => number index

/-- **What the sets of elements are numbered by**, and the aliases that are known behind them. -/
structure Numbered (position : Nat) (table : AliasTable) (used : Nat) (elements : List Node)
    (bindings : List Binding) (aliases : AliasTable) (number : Nat → Nat) : Prop where
  above : ∀ index body, ListsSet elements index body → used < number index
  increasing : ∀ index later body body', ListsSet elements index body →
    ListsSet elements later body' → index < later → number index < number later
  free : ∀ index body, ListsSet elements index body →
    table.contains (inlinedName (number index)) = false
  bound : ∀ index body, ListsSet elements index body →
    ∃ binding ∈ bindings, binding.position = position + index ∧
      binding.aliasName = inlinedName (number index)
  get?_iff : ∀ name set, aliases.get? name = some set ↔
    table.get? name = some set ∨ ∃ index body, ListsSet elements index body ∧
      name = inlinedName (number index) ∧ set = body.childTexts.eraseDups
  size_eq : aliases.size = table.size + setsWritten elements

section

variable {position used : Nat} {table aliases : AliasTable} {elements : List Node}
  {bindings : List Binding} {number : Nat → Nat} {element first : Node}

/-- An element without a set gets no number. -/
theorem Numbered.skip
    (h : Numbered (position + 1) table used elements bindings aliases number)
    (hfirst : element.elementInstruction = .ok first) (hkind : first.kind ≠ .instructionSet) :
    Numbered position table used (element :: elements) bindings aliases (ahead 0 number) where
  above index body hset := by
    obtain ⟨behind, rfl, hset⟩ := (listsSet_cons_of_ne hfirst hkind).1 hset
    exact h.above behind body hset
  increasing index later body body' hset hlater hlt := by
    obtain ⟨behind, rfl, hset⟩ := (listsSet_cons_of_ne hfirst hkind).1 hset
    obtain ⟨behind', rfl, hlater⟩ := (listsSet_cons_of_ne hfirst hkind).1 hlater
    exact h.increasing behind behind' body body' hset hlater (by omega)
  free index body hset := by
    obtain ⟨behind, rfl, hset⟩ := (listsSet_cons_of_ne hfirst hkind).1 hset
    exact h.free behind body hset
  bound index body hset := by
    obtain ⟨behind, rfl, hset⟩ := (listsSet_cons_of_ne hfirst hkind).1 hset
    obtain ⟨binding, hmem, hposition, hname⟩ := h.bound behind body hset
    exact ⟨binding, hmem, by omega, hname⟩
  get?_iff name set := by
    rw [h.get?_iff]
    refine or_congr_right ⟨?_, ?_⟩
    · rintro ⟨behind, body, hset, hrest⟩
      exact ⟨behind + 1, body, hset, hrest⟩
    · rintro ⟨index, body, hset, hrest⟩
      obtain ⟨behind, rfl, hset⟩ := (listsSet_cons_of_ne hfirst hkind).1 hset
      exact ⟨behind, body, hset, hrest⟩
  size_eq := by rw [h.size_eq, setsWritten_cons hfirst, if_neg hkind, Nat.add_zero]

/-- A binding more takes no number away. -/
theorem Numbered.cons (h : Numbered position table used elements bindings aliases number)
    (binding : Binding) :
    Numbered position table used elements (binding :: bindings) aliases number where
  above := h.above
  increasing := h.increasing
  free := h.free
  bound index body hset := by
    obtain ⟨found, hmem, hfound⟩ := h.bound index body hset
    exact ⟨found, List.mem_cons_of_mem _ hmem, hfound⟩
  get?_iff := h.get?_iff
  size_eq := h.size_eq

/-- **A set gets the next free number.**  Those behind it are above it, and were free before it. -/
theorem Numbered.take
    (h : Numbered (position + 1)
      (table.insert (inlinedName (freshIndex table used)) first.childTexts)
      (freshIndex table used) elements bindings aliases number)
    (hfirst : element.elementInstruction = .ok first) (hkind : first.kind = .instructionSet)
    (displayName : String) :
    Numbered position table used (element :: elements)
      (⟨displayName, inlinedName (freshIndex table used), position⟩ :: bindings) aliases
      (ahead (freshIndex table used) number) where
  above index body hset := by
    have hlt := (freshIndex_spec table used).1
    obtain ⟨rfl, -, -⟩ | ⟨behind, rfl, hset⟩ := (listsSet_cons hfirst).1 hset
    · exact hlt
    · exact hlt.trans (h.above behind body hset)
  increasing index later body body' hset hlater hlt := by
    obtain ⟨rfl, -, -⟩ | ⟨behind', rfl, hlater⟩ := (listsSet_cons hfirst).1 hlater
    · omega
    obtain ⟨rfl, -, -⟩ | ⟨behind, rfl, hset⟩ := (listsSet_cons hfirst).1 hset
    · exact h.above behind' body' hlater
    · exact h.increasing behind behind' body body' hset hlater (by omega)
  free index body hset := by
    obtain ⟨rfl, -, -⟩ | ⟨behind, rfl, hset⟩ := (listsSet_cons hfirst).1 hset
    · exact freshIndex_not_contains table used
    · have hfree := h.free behind body hset
      rw [AliasTable.contains_insert, Bool.or_eq_false_iff] at hfree
      exact hfree.2
  bound index body hset := by
    obtain ⟨rfl, -, -⟩ | ⟨behind, rfl, hset⟩ := (listsSet_cons hfirst).1 hset
    · exact ⟨_, List.mem_cons_self, rfl, rfl⟩
    · obtain ⟨binding, hmem, hposition, hname⟩ := h.bound behind body hset
      exact ⟨binding, List.mem_cons_of_mem _ hmem, by omega, hname⟩
  get?_iff name set := by
    rw [h.get?_iff, AliasTable.get?_insert_eq_some_iff (freshIndex_not_contains table used),
      or_assoc]
    refine or_congr_right ⟨?_, ?_⟩
    · rintro (hnew | ⟨behind, body, hset, hrest⟩)
      · exact ⟨0, first, (listsSet_cons hfirst).2 (.inl ⟨rfl, rfl, hkind⟩), hnew⟩
      · exact ⟨behind + 1, body, hset, hrest⟩
    · rintro ⟨index, body, hset, hrest⟩
      obtain ⟨rfl, rfl, -⟩ | ⟨behind, rfl, hset⟩ := (listsSet_cons hfirst).1 hset
      · exact .inl hrest
      · exact .inr ⟨behind, body, hset, hrest⟩
  size_eq := by
    rw [h.size_eq, AliasTable.size_insert (freshIndex_not_contains table used),
      setsWritten_cons hfirst, if_pos hkind]
    omega

/-- **The sets of a match side are numbered in order, by numbers whose aliases are free.** -/
theorem Resolves.exists_numbered (h : Resolves position table used elements bindings aliases) :
    ∃ number, Numbered position table used elements bindings aliases number := by
  induction h with
  | done position table used =>
    refine ⟨id, ?_, ?_, ?_, ?_, ?_, rfl⟩ <;> simp [ListsSet]
  | named _ hbody hkind _ _ ih =>
    obtain ⟨number, hnumber⟩ := ih
    exact ⟨_, (hnumber.skip hbody (by simp [hkind])).cons _⟩
  | single hbody hkind _ ih =>
    obtain ⟨number, hnumber⟩ := ih
    exact ⟨_, hnumber.skip hbody (by rcases hkind with hkind | ⟨hkind, -⟩ <;> simp [hkind])⟩
  | inlined _ hbody hkind _ ih =>
    obtain ⟨number, hnumber⟩ := ih
    exact ⟨_, hnumber.take hbody hkind _⟩

/-! ## Resolution -/

/-- An element is shown under its own name, or as `unnamed` if it has none. -/
theorem displayName_eq_ok_iff {name : String} :
    element.displayName = .ok name ↔
      element.kind = .namedElement ∧ name = element.text ∨
        element.kind = .unnamedElement ∧ name = "unnamed" := by
  rw [Node.displayName]
  cases element.kind <;> simp [eq_comm]

/-- Positions rise along the bindings, so the slot at a position is the binding with that
position. -/
theorem slotAt?_eq_some_iff (hpairwise : bindings.Pairwise (·.position < ·.position))
    {slot : Nat} :
    slotAt? bindings position = some slot ↔
      ∃ binding, bindings[slot]? = some binding ∧ binding.position = position := by
  constructor
  · intro h
    obtain ⟨hlt, hposition, -⟩ := List.findIdx?_eq_some_iff_getElem.1 h
    exact ⟨bindings[slot], List.getElem?_eq_getElem hlt, by simpa using hposition⟩
  · rintro ⟨binding, hbinding, rfl⟩
    exact slotAt?_of_getElem? hpairwise hbinding

/-- The binding of an element: it bears the name of the element, `unnamed` if there is none, and
goes by the alias that the element names or by that of the set it lists. -/
def IsBindingOf (binding : Binding) (element : Node) (number : Nat) : Prop :=
  (element.kind = .namedElement ∧ binding.displayName = element.text ∨
      element.kind = .unnamedElement ∧ binding.displayName = "unnamed") ∧
    ∃ body, element.elementInstruction = .ok body ∧
      (body.kind = .instruction ∧ binding.aliasName = body.text ∨
        body.kind = .instructionSet ∧ binding.aliasName = inlinedName number)

/-- Bindings belong to elements that ask for an instruction or list a set. -/
theorem Resolves.exists_isBindingOf (h : Resolves 0 table used elements bindings aliases)
    (hnumbered : Numbered 0 table used elements bindings aliases number) {binding : Binding}
    (hmem : binding ∈ bindings) :
    ∃ element, elements[binding.position]? = some element ∧
      binding.IsBindingOf element (number binding.position) := by
  obtain ⟨index, element, body, hposition, helement, hname, hbody, hbound⟩ :=
    h.exists_boundTo binding hmem
  obtain rfl : binding.position = index := by omega
  refine ⟨element, helement, displayName_eq_ok_iff.1 hname, body, hbody, ?_⟩
  refine hbound.imp_right fun hkind => ⟨hkind, ?_⟩
  -- The numbering names one binding at this position, and there is no other.
  obtain ⟨found, hfound, hsame, halias⟩ := hnumbered.bound _ body ⟨element, helement, hbody, hkind⟩
  rw [Nat.zero_add] at hsame
  have hdistinct : (bindings.map Binding.position).Nodup :=
    List.pairwise_map.2 (h.positions.2.imp Nat.ne_of_lt)
  obtain rfl := List.inj_on_of_nodup_map hdistinct hfound hmem hsame
  exact halias

/-- **Resolution only adds, under new names.**  The aliases of a rule are those it starts from,
unchanged, and one for each set that its match side lists: `inlined_k`, where `k` grows with the
position and the name is free, for the instructions of the set without repetitions.  The bindings
are in the order of the match side, each for an element of its own that is no wildcard, and all
their aliases are known.  So the slot at a position is that of its binding, and an expansion finds
the instructions of every binding. -/
theorem resolve_only_adds {rule : Node}
    (h : (resolve rule table).result = .ok (bindings, aliases)) :
    ∃ pattern number, rule.matchSide = .ok pattern ∧
      (∀ name set, table.get? name = some set → aliases.get? name = some set) ∧
      Numbered 0 table 0 pattern.children bindings aliases number ∧
      bindings.Pairwise (·.position < ·.position) ∧
      (∀ binding ∈ bindings, aliases.contains binding.aliasName = true ∧
        ∃ element, pattern.children[binding.position]? = some element ∧
          binding.IsBindingOf element (number binding.position)) ∧
      (∀ position slot, slotAt? bindings position = some slot ↔
        ∃ binding, bindings[slot]? = some binding ∧ binding.position = position) ∧
      ∃ sets, Expansion.candidates aliases bindings = .ok sets := by
  obtain ⟨pattern, hpattern⟩ := matchSide_of_resolve h
  have hresolves := resolves_of_resolve hpattern h
  obtain ⟨number, hnumbered⟩ := hresolves.exists_numbered
  refine ⟨pattern, number, hpattern, fun _ _ => hresolves.get?_of_get?, hnumbered,
    hresolves.positions.2, fun binding hmem => ?_, fun _ _ => ?_, Expansion.exists_candidates h⟩
  · exact ⟨hresolves.contains_aliasName binding hmem, hresolves.exists_isBindingOf hnumbered hmem⟩
  · exact slotAt?_eq_some_iff hresolves.positions.2

end

namespace Taken

/-- Two sets around a wildcard and an alias. -/
def elements : List Node :=
  [.mk .namedElement "x" [.branch .instructionSet
      [.leaf .instruction "dup", .leaf .instruction "pop", .leaf .instruction "dup"]],
    .branch .unnamedElement [.leaf .wildcard ""],
    .branch .unnamedElement [.leaf .instruction "inlined_1"],
    .branch .unnamedElement [.branch .instructionSet [.leaf .instruction "nop"]]]

/-- The rule of these elements. -/
def rule : Node := .mk .rule "p" [.branch .pattern elements, .branch .replacement []]

/-- A table in which the first number is taken. -/
def table : AliasTable := AliasTable.empty.insert "inlined_1" ["iload"]

/-- Only the sets and the alias are bound; the sets take the numbers that are free. -/
def bindings : List Binding :=
  [⟨"x", "inlined_2", 0⟩, ⟨"unnamed", "inlined_1", 2⟩, ⟨"unnamed", "inlined_3", 3⟩]

/-- The aliases of the file, and the two made up for the sets. -/
def aliases : AliasTable := (table.insert "inlined_2" ["dup", "pop"]).insert "inlined_3" ["nop"]

end Taken

/-- Where a file has an alias `inlined_1`, the sets of a rule get the numbers 2 and 3. -/
theorem resolve_only_adds_taken :
    (resolve Taken.rule Taken.table).result = .ok (Taken.bindings, Taken.aliases) ∧
      ∃ number, Numbered 0 Taken.table 0 Taken.elements Taken.bindings Taken.aliases number ∧
        number 0 < number 3 ∧ Taken.aliases.get? "inlined_1" = some ["iload"] := by
  have hresolve : (resolve Taken.rule Taken.table).result = .ok (Taken.bindings, Taken.aliases) :=
    rfl
  obtain ⟨pattern, number, hpattern, hkept, hnumbered, -⟩ := resolve_only_adds hresolve
  obtain rfl := Except.ok.inj hpattern
  refine ⟨hresolve, number, hnumbered, ?_, hkept _ _ (by decide +kernel)⟩
  exact hnumbered.increasing 0 3 _ _ ⟨_, rfl, rfl, rfl⟩ ⟨_, rfl, rfl, rfl⟩ (by decide)

end Binding

end Peephole

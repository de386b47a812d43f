import Mathlib.Data.Nat.Count
import Peephole.Proofs.Binding.Declarations
import Peephole.Proofs.Binding.Resolution
import Peephole.Proofs.Layout.LaidOut

/-!
# Proofs/Binding/Hygiene — which instructions are taken for aliases

A set written in a match side gets an alias of its own, `inlined_k`, and is looked up by it like any
other.  No declared alias is touched, for only *free* numbers are given: the n-th set gets the n-th
number whose alias is not declared (`Extended`).  But an opcode may be called `inlined_k` as well.
Behind the set that took its name, such an opcode stands for the set (`bound_iff_declared_or_taken`,
`bound_though_undeclared`); every other instruction without a declaration stands for itself.
-/

namespace Peephole

namespace Binding

/-! ## Numbers of sets -/

/-- A number that a set can get: the alias it makes is not declared. -/
def FreeNumber (declared : List String) (number : Nat) : Prop :=
  0 < number ∧ inlinedName number ∉ declared

instance (declared : List String) : DecidablePred (FreeNumber declared) :=
  fun _ => inferInstanceAs (Decidable (_ ∧ _))

/-- **The aliases of the first sets of a match side**: those of the first free numbers. -/
def NamesSet (declared : List String) (sets : Nat) (name : String) : Prop :=
  ∃ number, FreeNumber declared number ∧ Nat.count (FreeNumber declared) number < sets ∧
    name = inlinedName number

/-- The number of sets written among match elements. -/
def setsWritten (elements : List Node) : Nat :=
  elements.countP fun element => (element.child? 0).any (·.kind = .instructionSet)

theorem inlinedName_inj {m n : Nat} (h : inlinedName m = inlinedName n) : m = n :=
  toString_nat_inj ((String.append_right_inj _).1 h)

/-- The next number is above the last one, and what lies between them is taken. -/
theorem freshIndex_spec (table : AliasTable) (used : Nat) :
    used < freshIndex table used ∧ ∀ number, used < number → number < freshIndex table used →
      table.contains (inlinedName number) = true := by
  obtain ⟨-, hmem, hleast⟩ := List.find?_range'_eq_some.1 (find?_freshIndex table used)
  exact ⟨(List.mem_range'_1.1 hmem).1, fun number hlt hgt => by simpa using hleast number hlt hgt⟩

/-- **What is known behind some sets**: the declared aliases and those of the sets, whose numbers
are the free ones up to the last number given. -/
structure Extended (declared : List String) (table : AliasTable) (used sets : Nat) : Prop where
  counted : Nat.count (FreeNumber declared) (used + 1) = sets
  contains_iff : ∀ name, table.contains name = true ↔ name ∈ declared ∨ NamesSet declared sets name

section

variable {declared : List String} {table aliases : AliasTable} {used sets position : Nat}
  {elements : List Node} {bindings : List Binding}

/-- Before the first set, only the declared aliases are known. -/
theorem Extended.initial (h : ∀ name, table.contains name = true ↔ name ∈ declared) :
    Extended declared table 0 0 where
  counted := Nat.count_of_forall_not fun number hlt hfree => by have := hfree.1; omega
  contains_iff name := by
    rw [h name, or_iff_left]
    rintro ⟨number, -, hlt, -⟩
    omega

/-- A free number is that of a set exactly if it is no higher than the last one given. -/
theorem Extended.names_iff (h : Extended declared table used sets) {number : Nat}
    (hfree : FreeNumber declared number) :
    table.contains (inlinedName number) = true ↔ number ≤ used := by
  rw [h.contains_iff, or_iff_right hfree.2]
  constructor
  · rintro ⟨other, -, hlt, heq⟩
    obtain rfl := inlinedName_inj heq
    rw [← h.counted] at hlt
    exact Nat.le_of_lt_succ (Nat.lt_of_count_lt_count hlt)
  · intro hle
    refine ⟨number, hfree, ?_, rfl⟩
    rw [← h.counted]
    exact Nat.count_strict_mono hfree (Nat.lt_succ_of_le hle)

/-- The next set gets the next free number. -/
theorem Extended.count_freshIndex (h : Extended declared table used sets) :
    FreeNumber declared (freshIndex table used) ∧
      Nat.count (FreeNumber declared) (freshIndex table used) = sets := by
  obtain ⟨hlt, htaken⟩ := freshIndex_spec table used
  have hnot := freshIndex_not_contains table used
  have hfree : FreeNumber declared (freshIndex table used) := by
    refine ⟨by omega, fun hmem => ?_⟩
    rw [(h.contains_iff _).2 (.inl hmem)] at hnot
    cases hnot
  refine ⟨hfree, ?_⟩
  obtain ⟨gap, hgap⟩ := Nat.exists_eq_add_of_le hlt
  -- No free number lies between the last number given and the next.
  have hnone : Nat.count (fun k => FreeNumber declared (used + 1 + k)) gap = 0 := by
    refine Nat.count_of_forall_not fun k hk hfree => ?_
    have hle := (h.names_iff hfree).1 (htaken _ (by omega) (by omega))
    omega
  rw [hgap, Nat.count_add, h.counted, hnone, Nat.add_zero]

/-- **What is known behind one more set.** -/
theorem Extended.insert (h : Extended declared table used sets) (instructions : List String) :
    Extended declared (table.insert (inlinedName (freshIndex table used)) instructions)
      (freshIndex table used) (sets + 1) where
  counted := by
    obtain ⟨hfree, hcount⟩ := h.count_freshIndex
    rw [Nat.count_succ, hcount, if_pos hfree]
  contains_iff name := by
    obtain ⟨hfree, hcount⟩ := h.count_freshIndex
    rw [AliasTable.contains_insert, Bool.or_eq_true, decide_eq_true_iff, h.contains_iff,
      or_left_comm]
    refine or_congr_right ⟨?_, ?_⟩
    · rintro (rfl | ⟨number, hnumber, hlt, rfl⟩)
      · exact ⟨_, hfree, by omega, rfl⟩
      · exact ⟨number, hnumber, by omega, rfl⟩
    · rintro ⟨number, hnumber, hlt, rfl⟩
      by_cases hlast : Nat.count (FreeNumber declared) number = sets
      · exact .inl (congrArg inlinedName
          (Nat.count_injective hnumber hfree (hlast.trans hcount.symm)))
      · exact .inr ⟨number, hnumber, by omega, rfl⟩

/-! ## Elements behind sets -/

/-- An element with a set adds one to the sets written, any other nothing. -/
theorem setsWritten_cons {element body : Node} (hbody : element.elementInstruction = .ok body)
    (elements : List Node) :
    setsWritten (element :: elements)
      = setsWritten elements + if body.kind = .instructionSet then 1 else 0 := by
  have hchild : element.child? 0 = some body := by
    unfold Node.elementInstruction at hbody
    unfold Node.child?
    split at hbody
    case h_1 hchildren => rw [hchildren, ← Except.ok.inj hbody]; rfl
    case h_2 => cases hbody
  rw [setsWritten, List.countP_cons, hchild]
  simp [setsWritten]

/-- Nothing is bound before the first element, so that an element there ranges over what it names
if that is known. -/
theorem Extended.ranges_iff (h : Extended declared table used sets)
    (hbindings : ∀ binding ∈ bindings, position ≤ binding.position) (body : Node) :
    Ranges table bindings position body ↔ body.kind = .instructionSet ∨ body.kind = .instruction ∧
      (body.text ∈ declared ∨ NamesSet declared sets body.text) := by
  have hnone : ¬ ∃ binding ∈ bindings,
      binding.position < position ∧ binding.aliasName = body.text := by
    rintro ⟨binding, hmem, hlt, -⟩
    exact absurd (hbindings binding hmem) (Nat.not_le_of_lt hlt)
  rw [Ranges, h.contains_iff, or_iff_left hnone]

/-- **An element ranges over a set exactly if it lists one, or names a declared alias or the alias
of a set written before it.** -/
theorem Resolves.ranges_iff (h : Resolves position table used elements bindings aliases)
    (hextended : Extended declared table used sets) (index : Nat) (body : Node) :
    Ranges table bindings (position + index) body ↔
      body.kind = .instructionSet ∨ body.kind = .instruction ∧ (body.text ∈ declared ∨
        NamesSet declared (sets + setsWritten (elements.take index)) body.text) := by
  induction h generalizing index sets with
  | done =>
    rw [List.take_nil]
    exact hextended.ranges_iff (by simp) body
  | @named position _ table _ element _ elements _ _ hname hfirst hkind halias hmore ih =>
    cases index with
    | zero =>
      exact hextended.ranges_iff (Resolves.named hname hfirst hkind halias hmore).positions.1 body
    | succ index =>
      have hsets : setsWritten ((element :: elements).take (index + 1))
          = setsWritten (elements.take index) := by
        rw [List.take_succ_cons, setsWritten_cons hfirst, if_neg (by simp [hkind]), Nat.add_zero]
      rw [hsets, ← ih hextended index]
      refine ranges_cons ⟨_, _, position⟩ fun name => ⟨.inl, ?_⟩
      rintro (hname | rfl)
      · exact hname
      · exact halias
  | @single position _ table _ element firstBody elements _ hfirst hkind hmore ih =>
    cases index with
    | zero => exact hextended.ranges_iff (Resolves.single hfirst hkind hmore).positions.1 body
    | succ index =>
      have hnot : firstBody.kind ≠ .instructionSet := by
        rcases hkind with hkind | ⟨hkind, -⟩ <;> simp [hkind]
      have hsets : setsWritten ((element :: elements).take (index + 1))
          = setsWritten (elements.take index) := by
        rw [List.take_succ_cons, setsWritten_cons hfirst, if_neg hnot, Nat.add_zero]
      rw [hsets, ← ih hextended index, Nat.add_assoc, Nat.add_comm 1]
  | @inlined position _ table _ element _ elements _ _ hname hfirst hkind hmore ih =>
    cases index with
    | zero =>
      exact hextended.ranges_iff (Resolves.inlined hname hfirst hkind hmore).positions.1 body
    | succ index =>
      have hsets : sets + setsWritten ((element :: elements).take (index + 1))
          = sets + 1 + setsWritten (elements.take index) := by
        rw [List.take_succ_cons, setsWritten_cons hfirst, if_pos hkind]
        omega
      rw [hsets, ← ih (hextended.insert _) index]
      refine ranges_cons ⟨_, _, position⟩ fun name => ?_
      rw [AliasTable.contains_insert, Bool.or_eq_true, decide_eq_true_iff, or_comm,
        @eq_comm String name]

/-! ## Elements of a rule -/

/-- Whether the instruction of the element at a position stands for a set: one that it lists, that
of a declared alias, or one written before it whose alias happens to bear its name. -/
def StandsForSet (declared : List String) (elements : List Node) (position : Nat) (body : Node) :
    Prop :=
  body.kind = .instructionSet ∨ body.kind = .instruction ∧
    (body.text ∈ declared ∨ NamesSet declared (setsWritten (elements.take position)) body.text)

/-- **Which elements are bound, and what the others match.**  In a file whose aliases are distinct,
an element is bound exactly if its instruction stands for a set.  An instruction that stands for
none is matched as the opcode it names; one that does is matched by the slot of its binding. -/
theorem bound_iff_declared_or_taken {source : String} {tree rule : Node}
    (hparse : parse source = .ok tree) (hdistinct : tree.declaredNames.Nodup)
    (hrule : rule ∈ tree.rules) :
    ∃ pattern table bindings aliases, rule.matchSide = .ok pattern ∧
      (AliasTable.build tree).result = .ok table ∧
      (resolve rule table).result = .ok (bindings, aliases) ∧
      ∀ position element, pattern.children[position]? = some element →
        ∃ body, element.elementInstruction = .ok body ∧
          ((∃ binding ∈ bindings, binding.position = position) ↔
            StandsForSet tree.declaredNames pattern.children position body) ∧
          ∀ side, MatchSide.ofRule rule bindings = .ok side → body.kind ≠ .wildcard →
            ∃ placed locals opcode, side.layout.elements[position]? = some placed ∧
              placed.opcode = some opcode ∧ .opcode opcode placed.cursor locals ∈ side.steps ∧
              (¬ StandsForSet tree.declaredNames pattern.children position body →
                opcode = .literal body.text) ∧
              (StandsForSet tree.declaredNames pattern.children position body →
                ∃ slot, slotAt? bindings position = some slot ∧ opcode = .slot slot) := by
  have hprogram := isProgram_of_parse hparse
  have hisRule := isRule_of_mem_rules hprogram hrule
  obtain ⟨table, hbuild⟩ := AliasTable.exists_build hprogram hdistinct
  obtain ⟨bindings, aliases, hresolve⟩ := exists_resolve hisRule table
  obtain ⟨pattern, hpattern⟩ := matchSide_of_resolve hresolve
  refine ⟨pattern, table, bindings, aliases, hpattern, hbuild, hresolve, ?_⟩
  have hresolves := resolves_of_resolve hpattern hresolve
  have hknown := Extended.initial (AliasTable.contains_of_build hprogram hbuild)
  intro position element hat
  have helement := hisRule.isElement hpattern element (List.mem_of_getElem? hat)
  obtain ⟨body, hbody, -⟩ := helement.exists_body
  have hbound : (∃ binding ∈ bindings, binding.position = position) ↔
      StandsForSet tree.declaredNames pattern.children position body := by
    have hiff := (hresolves.bound_iff hat hbody).trans (hresolves.ranges_iff hknown position body)
    rwa [Nat.zero_add, Nat.zero_add] at hiff
  refine ⟨body, hbody, hbound, fun side hside hkind => ?_⟩
  obtain ⟨numbers, -, hlaid⟩ := Layout.laidOut_of_ofRule hpattern hside
  obtain ⟨placed, locals, opcode, hplaced, hopcode, hguard, heq⟩ :=
    hlaid.exists_opcode hat helement hbody hkind
  rw [Nat.zero_add] at heq
  refine ⟨placed, locals, opcode, hplaced, hopcode, hguard, ?_, ?_⟩
  · intro hnot
    have hnone : slotAt? bindings position = none := by
      rwa [← hbound, ← isSome_slotAt?_iff, Option.not_isSome_iff_eq_none] at hnot
    rw [heq, hnone]
    rfl
  · intro hset
    rw [← hbound, ← isSome_slotAt?_iff] at hset
    obtain ⟨slot, hslot⟩ := Option.isSome_iff_exists.1 hset
    exact ⟨slot, hslot, by rw [heq, hslot]; rfl⟩

end

namespace Mixed

/-- A set, an alias, and two opcodes that could be aliases of sets. -/
def source : String :=
  "set load = \x7b iload \x7d; pattern p: \x7b a, b \x7d load inlined_2 inlined_1 --> \x7b \x7d"

/-- The one alias of the file. -/
def declaration : Node :=
  .branch .declaration
    [.leaf .identifier "load", .branch .instructionSet [.leaf .instruction "iload"]]

/-- A set, an alias, a name that is not taken, and one that the set has taken. -/
def elements : List Node :=
  [.branch .unnamedElement
    [.branch .instructionSet [.leaf .instruction "a", .leaf .instruction "b"]],
    .branch .unnamedElement [.leaf .instruction "load"],
    .branch .unnamedElement [.leaf .instruction "inlined_2"],
    .branch .unnamedElement [.leaf .instruction "inlined_1"]]

/-- The rule of these elements. -/
def rule : Node := .mk .rule "p" [.branch .pattern elements, .branch .replacement []]

/-- The file with the alias and the rule. -/
def tree : Node := .branch .program [declaration, rule]

theorem parse_source : parse source = .ok tree := eq_ok_of_toOption (by decide +kernel)

/-- What the file declares. -/
def table : AliasTable := AliasTable.empty.insert "load" ["iload"]

theorem build_tree : (AliasTable.build tree).result = .ok table := rfl

/-- All elements but the third are bound, the last one to the set of the first. -/
def bindings : List Binding :=
  [⟨"unnamed", "inlined_1", 0⟩, ⟨"unnamed", "load", 1⟩, ⟨"unnamed", "inlined_1", 3⟩]

/-- The set of the first element is called `inlined_1`, and the last element asks for that name. -/
theorem resolve_rule : (resolve rule table).result
    = .ok (bindings, table.insert "inlined_1" ["a", "b"]) :=
  rfl

/-- One set stands before the opcode, and took the number 1. -/
theorem not_standsForSet :
    ¬ StandsForSet tree.declaredNames elements 2 (.leaf .instruction "inlined_2") := by
  rintro (hset | ⟨-, hdeclared | ⟨number, -, hlt, hname⟩⟩)
  · cases hset
  · exact absurd hdeclared (by decide)
  · obtain rfl := @inlinedName_inj 2 number hname
    exact absurd hlt (by decide +kernel)

end Mixed

/-- Behind one set, `load` is bound and `inlined_2` is an opcode. -/
theorem bound_iff_declared_or_taken_mixed :
    (∃ binding ∈ Mixed.bindings, binding.position = 1) ∧
      ∃ side cursor locals, MatchSide.ofRule Mixed.rule Mixed.bindings = .ok side ∧
        .opcode (.literal "inlined_2") cursor locals ∈ side.steps := by
  obtain ⟨side, hside⟩ : ∃ side, MatchSide.ofRule Mixed.rule Mixed.bindings = .ok side := ⟨_, rfl⟩
  obtain ⟨pattern, table, bindings, aliases, hpattern, htable, hresolve, hall⟩ :=
    bound_iff_declared_or_taken Mixed.parse_source (by decide) (List.mem_singleton.2 rfl)
  obtain rfl := Except.ok.inj hpattern
  obtain rfl := Except.ok.inj (Mixed.build_tree.symm.trans htable)
  obtain ⟨rfl, rfl⟩ := Prod.mk.inj (Except.ok.inj (Mixed.resolve_rule.symm.trans hresolve))
  obtain ⟨load, hload, hbound, -⟩ := hall 1 _ rfl
  obtain rfl := Except.ok.inj hload
  obtain ⟨opcode, hopcode, -, hmatched⟩ := hall 2 _ rfl
  obtain rfl := Except.ok.inj hopcode
  obtain ⟨placed, locals, asked, -, -, hguard, hliteral, -⟩ := hmatched side hside (by decide)
  rw [hliteral Mixed.not_standsForSet] at hguard
  exact ⟨hbound.2 (.inr ⟨rfl, .inl (by decide)⟩), side, placed.cursor, locals, hside, hguard⟩

/-- **An opcode can be taken for a set**: no declaration names `inlined_1`, and yet the element that
asks for it ranges over the set before it. -/
theorem bound_though_undeclared :
    parse Mixed.source = .ok Mixed.tree ∧ Mixed.rule ∈ Mixed.tree.rules ∧
      "inlined_1" ∉ Mixed.tree.declaredNames ∧
      (AliasTable.build Mixed.tree).result = .ok Mixed.table ∧
      ∃ bindings aliases, (resolve Mixed.rule Mixed.table).result = .ok (bindings, aliases) ∧
        ∃ binding ∈ bindings, binding.position = 3 ∧ aliases.get? binding.aliasName = ["a", "b"] :=
  ⟨Mixed.parse_source, List.mem_singleton.2 rfl, by decide, Mixed.build_tree, _, _,
    Mixed.resolve_rule, ⟨"unnamed", "inlined_1", 3⟩, by decide, rfl, by decide +kernel⟩

end Binding

end Peephole

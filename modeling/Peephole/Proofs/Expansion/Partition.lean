import Peephole.Proofs.Expansion.Emission
import Peephole.Proofs.Layout.Execution

/-!
# Proofs/Expansion/Partition — the matchers of a rule partition what the rule accepts

A rule accepts a list if every bound element finds one of the candidates of its binding.  The
matcher of a combination accepts it if every bound element finds the one instruction chosen for it;
then the combination is the list of the instructions found (`listsOpcodes_of_accepts`).  So the
lists that the rule accepts fall to its matchers, each list to one of them.

A rule with `2 ^ 64` combinations, or a multiple of that, is the exception: it accepts lists and has
no matcher (`Overflows`).
-/

namespace Peephole

open C

namespace Binding

/-! ## Slots and positions -/

/-- The candidates of the binding at a position. -/
def candidates? (aliases : AliasTable) (bindings : List Binding) (position : Nat) :
    Option (List String) :=
  (bindings.find? (·.position == position)).bind fun binding => aliases.get? binding.aliasName

/-- **Instructions are those found at the bound positions.** -/
def ListsOpcodes (bindings : List Binding) (input : List Instr) : List String → Prop :=
  List.Forall₂ (fun binding instruction =>
    (input[binding.position]?).map Instr.opcode = some instruction) bindings

theorem ListsOpcodes.unique {bindings : List Binding} {input : List Instr}
    {first second : List String} (hfirst : ListsOpcodes bindings input first)
    (hsecond : ListsOpcodes bindings input second) :
    first = second :=
  List.right_unique_forall₂' (fun _ _ _ h h' => Option.some.inj (h.symm.trans h')) hfirst hsecond

/-- What a choice fixes for an element is one of the candidates of its binding. -/
theorem fixed?_mem_candidates? {aliases : AliasTable} {bindings : List Binding}
    {sets : List (List String)} {chosen : List String}
    (hsets : List.Forall₂ (fun binding set => aliases.get? binding.aliasName = some set) bindings
      sets)
    (hchosen : List.Forall₂ (· ∈ ·) chosen sets) (position : Nat) :
    (fixed? bindings chosen position = none ∧ candidates? aliases bindings position = none) ∨
      ∃ instruction set, fixed? bindings chosen position = some instruction ∧
        candidates? aliases bindings position = some set ∧ instruction ∈ set := by
  induction hsets generalizing chosen with
  | nil => exact .inl ⟨rfl, rfl⟩
  | @cons binding set bindings sets hset _ ih =>
    obtain _ | ⟨hmem, hmore⟩ := hchosen
    by_cases hposition : binding.position = position
    · refine .inr ⟨_, set, ?_, ?_, hmem⟩
      · simp [fixed?, hposition]
      · simp [candidates?, hposition, hset]
    · have hfixed := ih hmore
      simpa [fixed?, candidates?, hposition] using hfixed

section Distinct

variable {aliases : AliasTable} {bindings : List Binding} {chosen : List String}

/-- An instruction fixed at a position is that of a binding there. -/
theorem fixed?_map (f : Binding → String) {position : Nat} {instruction : String}
    (h : fixed? bindings (bindings.map f) position = some instruction) :
    ∃ binding ∈ bindings, binding.position = position ∧ instruction = f binding := by
  induction bindings with
  | nil => simp [fixed?] at h
  | cons first bindings ih =>
    by_cases hposition : first.position = position
    · refine ⟨first, List.mem_cons_self, hposition, ?_⟩
      simpa [fixed?, hposition, eq_comm] using h
    · obtain ⟨binding, hmem, hrest⟩ := ih (by simpa [fixed?, hposition] using h)
      exact ⟨binding, List.mem_cons_of_mem _ hmem, hrest⟩

end Distinct

end Binding

/-! ## Choices -/

/-- An element that takes an instruction takes it also from a wider choice of opcodes. -/
theorem Node.Takes.imp {element : Node} {before after : List String} {instr : Instr}
    (h : element.Takes (some before) instr)
    (himp : instr.opcode ∈ before → instr.opcode ∈ after) : element.Takes (some after) instr := by
  unfold Node.Takes at h ⊢
  split at h
  case h_1 => exact h
  case h_2 => exact h.imp_right fun htakes => ⟨himp htakes.1, htakes.2⟩

section Choices

variable {table aliases : AliasTable} {elements : List Node} {bindings : List Binding}
  {sets : List (List String)} {chosen : List String} {input : List Instr} {used : Nat}

/-- The opcode at the position of a binding. -/
def Binding.opcodeIn (input : List Instr) (binding : Binding) : String :=
  ((input[binding.position]?).map Instr.opcode).getD ""

/-- What the rule accepts, the combination of the opcodes found accepts. -/
theorem Accepts.choice
    (hsets : Expansion.candidates aliases bindings = .ok sets)
    (hchosen : bindings.map (Binding.opcodeIn input) ∈ product sets)
    (haccepts : Accepts elements (Binding.candidates? aliases bindings) input) :
    Accepts elements (Binding.fixed bindings (bindings.map (Binding.opcodeIn input))) input := by
  refine ⟨haccepts.enough, fun position element instr helement hinstr => ?_, haccepts.agree⟩
  have htakes := haccepts.each position element instr helement hinstr
  rcases Binding.fixed?_mem_candidates? (Expansion.candidates_eq_ok_iff.1 hsets)
      (mem_product.1 hchosen) position with
    ⟨hfixed, hnone⟩ | ⟨instruction, set, hfixed, hsome, -⟩
  · rw [hnone] at htakes
    rw [Binding.fixed, hfixed]
    exact htakes
  · rw [hsome] at htakes
    rw [Binding.fixed, hfixed]
    obtain ⟨binding, -, rfl, rfl⟩ := Binding.fixed?_map _ hfixed
    refine htakes.imp fun _ => ?_
    rw [Binding.opcodeIn, hinstr]
    exact List.mem_singleton_self _

theorem length_of_mem_product (hsets : Expansion.candidates aliases bindings = .ok sets)
    (hchosen : chosen ∈ product sets) : chosen.length = bindings.length := by
  rw [(mem_product.1 hchosen).length_eq, (Expansion.candidates_eq_ok_iff.1 hsets).length_eq]

/-- Candidates are identifiers. -/
theorem isIdentifier_of_candidates (haliases : aliases.ListsIdentifiers)
    (hsets : Expansion.candidates aliases bindings = .ok sets) :
    ∀ set ∈ sets, ∀ instruction ∈ set, IsIdentifier instruction := by
  intro set hset
  obtain ⟨name, hget⟩ := Expansion.exists_get?_of_candidates hsets set hset
  exact haliases name set hget

/-- The instructions of a combination are words. -/
theorem wordChars_of_mem_product (haliases : aliases.ListsIdentifiers)
    (hsets : Expansion.candidates aliases bindings = .ok sets) (hchosen : chosen ∈ product sets) :
    ∀ instruction ∈ chosen, WordChars instruction :=
  forall_of_mem_product (fun set hset instruction hmem =>
    (isIdentifier_of_candidates haliases hsets set hset instruction hmem).chars) hchosen

end Choices

/-! ## Matchers -/

/-- **The match side of a matcher accepts the list of a state**: its text falls through. -/
def Matcher.FallsThrough (arith : Arith) (matcher : Matcher) (state : State) : Prop :=
  ∃ last, run arith (matcher.side.template.instantiate matcher.instructions) state
    = some (.running last)

/-- **A matcher stands for a combination**: it has its instructions and accepts what it accepts. -/
structure Matcher.StandsFor (arith : Arith) (elements : List Node) (bindings : List Binding)
    (input : List Instr) (state : State) (chosen : List String) (matcher : Matcher) : Prop where
  instructions : matcher.instructions = chosen
  fallsThrough_iff : matcher.FallsThrough arith state ↔
    Accepts elements (Binding.fixed bindings chosen) input

section Matchers

variable {arith : Arith} {table aliases : AliasTable} {used : Nat} {elements : List Node}
  {bindings : List Binding} {sets : List (List String)} {input : List Instr} {state : State}
  {matchers : List Matcher}

end Matchers

/-- The aliases of a rule of a pattern file stand for identifiers. -/
theorem listsIdentifiers_of_resolve {tree rule pattern : Node} (htree : IsProgram tree)
    (hrule : rule ∈ tree.rules) (hpattern : rule.matchSide = .ok pattern)
    {table aliases : AliasTable} (htable : (AliasTable.build tree).result = .ok table)
    {bindings : List Binding}
    (hresolve : (Binding.resolve rule table).result = .ok (bindings, aliases)) :
    aliases.ListsIdentifiers := by
  have hresolves := Binding.resolves_of_resolve hpattern hresolve
  obtain ⟨-, -, hall, -⟩ := isRule_of_mem_rules htree hrule
  obtain rfl := Except.ok.inj hpattern
  exact hresolves.listsIdentifiers hall (listsIdentifiers_of_build htree htable)

namespace Doubled

end Doubled

namespace Uncounted

/-- Sixteen instructions. -/
def names : List String :=
  ["a", "b", "c", "d", "e", "f", "g", "h", "i", "j", "k", "l", "m", "n", "o", "p"]

/-- One of 16 instructions in each of 16 places: `2 ^ 64` combinations. -/
def source : String :=
  "set s = \x7b a, b, c, d, e, f, g, h, i, j, k, l, m, n, o, p \x7d;" ++
    "pattern r: s s s s s s s s s s s s s s s s --> \x7b \x7d"

/-- The declaration of the set. -/
def declaration : Node :=
  .branch .declaration
    [.leaf .identifier "s", .branch .instructionSet (names.map (.leaf .instruction))]

/-- The set in each of 16 places. -/
def pattern : Node :=
  .branch .pattern (List.replicate 16 (.branch .unnamedElement [.leaf .instruction "s"]))

/-- The rule that deletes what it matches. -/
def rule : Node := .mk .rule "r" [pattern, .branch .replacement []]

theorem parse_source : parse source = .ok (.branch .program [declaration, rule]) :=
  eq_ok_of_toOption (by decide +kernel)

/-- What the file declares. -/
def table : AliasTable := AliasTable.empty.insert "s" names

/-- All 16 elements are bound to the set. -/
def bindings : List Binding := (List.range 16).map fun position => ⟨"unnamed", "s", position⟩

theorem resolve_rule : (Binding.resolve rule table).result = .ok (bindings, table) :=
  eq_ok_of_toOption (by decide +kernel)

/-- The instruction `a`, 16 times. -/
def input : List Instr := List.replicate 15 ⟨"a", []⟩ ++ [⟨"a", []⟩]

/-- That list, and nothing declared. -/
def state : State where
  store := extended [] (List.replicate 15 ⟨"a", []⟩) ⟨"a", []⟩ none
  start := some 0
  locals _ := none

end Uncounted

end Peephole

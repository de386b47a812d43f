import Mathlib.Data.List.Basic
import Peephole.Binding
import Peephole.Proofs.C.Machine

/-!
# Proofs/Layout/Acceptance — which instructions a match side is meant to match

A match side is read here as it stands, next to a list of instructions: there must be an instruction
for each element, each element must take its instruction, and captures of one name must agree.
`bound` says which opcodes the bindings leave to the element at a position; an element without a
binding takes the opcode it names, and a wildcard takes anything.

`AcceptsFrom` says the same of the elements from some position on, behind the captures of those
before it, and can be read off one element at a time (`acceptsFrom_cons_cons`).
-/

namespace Peephole

/-! ## Acceptance -/

/-- Whether an element takes an instruction, when its binding leaves it the opcodes `bound`. -/
def Node.Takes (element : Node) (bound : Option (List String)) (instr : Instr) : Prop :=
  match element.children with
  | [] => False
  | body :: captures =>
    body.kind = .wildcard ∨
      instr.opcode ∈ bound.getD [body.text] ∧ instr.arguments.length = captures.length

/-- The arguments of an instruction, each under the name that an element captures it by. -/
def Node.captured (element : Node) (instr : Instr) : List (String × Int) :=
  (element.childTexts.drop 1).zip instr.arguments

/-- All arguments captured. -/
def capturesOf (elements : List Node) (input : List Instr) : List (String × Int) :=
  (elements.zip input).flatMap fun pair => pair.1.captured pair.2

/-- Captures of one name have one value. -/
def Agree (captured : List (String × Int)) : Prop :=
  ∀ name first second, (name, first) ∈ captured → (name, second) ∈ captured → first = second

/-- **The instructions that a match side accepts.** -/
structure Accepts (elements : List Node) (bound : Nat → Option (List String))
    (input : List Instr) : Prop where
  enough : elements.length ≤ input.length
  each : ∀ (position : Nat) (element : Node) (instr : Instr), elements[position]? = some element →
    input[position]? = some instr → element.Takes (bound position) instr
  agree : Agree (capturesOf elements input)

/-- The instruction fixed for the element at a position by the choice of one per binding. -/
def Binding.fixed? (bindings : List Binding) (chosen : List String) (position : Nat) :
    Option String :=
  ((bindings.zip chosen).find? (·.1.position == position)).map (·.2)

/-- The one opcode that a choice leaves to a bound element. -/
def Binding.fixed (bindings : List Binding) (chosen : List String) (position : Nat) :
    Option (List String) :=
  (fixed? bindings chosen position).map ([·])

/-- What is fixed at a position is what is chosen for the slot there. -/
theorem Binding.fixed?_eq (bindings : List Binding) (chosen : List String) (position : Nat) :
    fixed? bindings chosen position
      = (slotAt? bindings position).bind fun slot => chosen[slot]? := by
  induction bindings generalizing chosen with
  | nil => rfl
  | cons binding bindings ih =>
    cases chosen with
    | nil => simp [fixed?]
    | cons first chosen =>
      have hmore := ih chosen
      simp only [fixed?, slotAt?] at hmore ⊢
      rw [List.zip_cons_cons, List.find?_cons, List.findIdx?_cons]
      by_cases hposition : binding.position == position
      · simp [hposition]
      · simp only [hposition, hmore]
        cases bindings.findIdx? (·.position == position) <;> rfl

/-- An instruction is fixed for the elements that have a binding. -/
theorem Binding.isSome_fixed?_iff {bindings : List Binding} {chosen : List String} {position : Nat}
    (hlength : chosen.length = bindings.length) :
    (fixed? bindings chosen position).isSome = true ↔
      ∃ binding ∈ bindings, binding.position = position := by
  rw [fixed?_eq]
  cases hslot : slotAt? bindings position with
  | none =>
    refine iff_of_false (by simp) ?_
    rintro ⟨binding, hmem, hposition⟩
    have hnot := List.findIdx?_eq_none_iff.1 hslot binding hmem
    simp [hposition] at hnot
  | some slot =>
    obtain ⟨hlt, hposition, -⟩ := List.findIdx?_eq_some_iff_getElem.1 hslot
    refine iff_of_true ?_ ⟨bindings[slot], List.getElem_mem hlt, by simpa using hposition⟩
    simp [hlength, hlt]

/-! ## Element by element -/

/-- The acceptance of elements, the first of which stands at `position`, behind captures. -/
structure AcceptsFrom (bound : Nat → Option (List String)) (position : Nat)
    (seen : List (String × Int)) (elements : List Node) (input : List Instr) : Prop where
  enough : elements.length ≤ input.length
  each : ∀ (index : Nat) (element : Node) (instr : Instr), elements[index]? = some element →
    input[index]? = some instr → element.Takes (bound (position + index)) instr
  agree : Agree (seen ++ capturesOf elements input)

variable {bound : Nat → Option (List String)} {position : Nat} {seen : List (String × Int)}
  {element : Node} {elements : List Node} {instr : Instr} {input : List Instr}

/-- Acceptance starts at the first element, with nothing seen. -/
theorem accepts_iff : Accepts elements bound input ↔ AcceptsFrom bound 0 [] elements input := by
  refine ⟨fun h => ⟨h.enough, fun index => ?_, h.agree⟩,
    fun h => ⟨h.enough, fun index => ?_, h.agree⟩⟩
  · rw [Nat.zero_add]
    exact h.each index
  · have heach := h.each index
    rwa [Nat.zero_add] at heach

theorem Agree.sublist {first second : List (String × Int)} (h : Agree second)
    (hsub : first.Sublist second) : Agree first :=
  fun name _ _ hfirst hsecond => h name _ _ (hsub.subset hfirst) (hsub.subset hsecond)

/-- The first capture of a name is the one that is found. -/
theorem lookup_concat (seen : List (String × Int)) (name other : String) (value : Int) :
    (seen ++ [(name, value)]).lookup other
      = (seen.lookup other).or (if other = name then some value else none) := by
  rw [List.lookup_append]
  by_cases h : other = name
  · simp [h]
  · have hne : (other == name) = false := by simpa using h
    simp [List.lookup_cons, h, hne]

theorem mem_of_lookup {name : String} {value : Int} (h : seen.lookup name = some value) :
    (name, value) ∈ seen := by
  obtain ⟨before, behind, rfl, -⟩ := List.lookup_eq_some_iff.1 h
  simp

/-- One more capture agrees with others if it does with those of its name. -/
theorem Agree.concat {name : String} {value : Int} (h : Agree seen)
    (hvalue : ∀ first, (name, first) ∈ seen → first = value) :
    Agree (seen ++ [(name, value)]) := by
  intro other first second hfirst hsecond
  simp only [List.mem_append, List.mem_singleton, Prod.mk.injEq] at hfirst hsecond
  rcases hfirst with hfirst | ⟨rfl, rfl⟩ <;> rcases hsecond with hsecond | ⟨hname, rfl⟩
  · exact h other first second hfirst hsecond
  · subst hname
    exact hvalue first hfirst
  · exact (hvalue second hsecond).symm
  · rfl

theorem acceptsFrom_nil : AcceptsFrom bound position seen [] input ↔ Agree seen := by
  refine ⟨fun h => ?_, fun h => ⟨Nat.zero_le _, by simp, ?_⟩⟩
  · simpa [capturesOf] using h.agree
  · simpa [capturesOf] using h

theorem not_acceptsFrom_cons_nil : ¬ AcceptsFrom bound position seen (element :: elements) [] :=
  fun h => Nat.not_succ_le_zero _ h.enough

/-- **One element, then the others** behind its captures. -/
theorem acceptsFrom_cons_cons :
    AcceptsFrom bound position seen (element :: elements) (instr :: input) ↔
      element.Takes (bound position) instr ∧
        AcceptsFrom bound (position + 1) (seen ++ element.captured instr) elements input := by
  have hcaptures : seen ++ capturesOf (element :: elements) (instr :: input)
      = seen ++ element.captured instr ++ capturesOf elements input := by
    simp [capturesOf]
  constructor
  · rintro ⟨henough, heach, hagree⟩
    refine ⟨heach 0 element instr rfl rfl, Nat.le_of_succ_le_succ henough, ?_, hcaptures ▸ hagree⟩
    intro index later instr' hlater hinstr
    rw [Nat.add_assoc, Nat.add_comm 1]
    exact heach (index + 1) later instr' hlater hinstr
  · rintro ⟨htakes, henough, heach, hagree⟩
    refine ⟨Nat.succ_le_succ henough, ?_, hcaptures ▸ hagree⟩
    rintro (_ | index) later instr' hlater hinstr
    · obtain rfl := Option.some.inj hlater
      obtain rfl := Option.some.inj hinstr
      exact htakes
    · rw [Nat.add_comm index, ← Nat.add_assoc]
      exact heach index later instr' hlater hinstr

theorem AcceptsFrom.agree_seen (h : AcceptsFrom bound position seen elements input) : Agree seen :=
  h.agree.sublist (List.sublist_append_left _ _)

/-! ## Deciding acceptance -/

instance Node.decidableTakes : (element : Node) → (bound : Option (List String)) →
    (instr : Instr) → Decidable (element.Takes bound instr)
  | .mk _ _ [], _, _ => inferInstanceAs (Decidable False)
  | .mk _ _ (body :: captures), bound, instr =>
    inferInstanceAs (Decidable (body.kind = .wildcard ∨
      instr.opcode ∈ bound.getD [body.text] ∧ instr.arguments.length = captures.length))

instance : DecidablePred Agree := fun captured =>
  decidable_of_iff
    (∀ first ∈ captured, ∀ second ∈ captured, first.1 = second.1 → first.2 = second.2)
    ⟨fun h _ _ _ hfirst hsecond => h _ hfirst _ hsecond rfl,
      fun h first hfirst _ hsecond heq => h first.1 _ _ hfirst (heq ▸ hsecond)⟩

/-- Whether elements accept instructions. -/
def AcceptsFrom.decision (bound : Nat → Option (List String)) : (position : Nat) →
    (seen : List (String × Int)) → (elements : List Node) → (input : List Instr) →
    Decidable (AcceptsFrom bound position seen elements input)
  | _, _, [], _ => decidable_of_iff _ acceptsFrom_nil.symm
  | _, _, _ :: _, [] => isFalse not_acceptsFrom_cons_nil
  | position, seen, element :: elements, instr :: input =>
    have := decision bound (position + 1) (seen ++ element.captured instr) elements input
    decidable_of_iff _ acceptsFrom_cons_cons.symm

instance : Decidable (Accepts elements bound input) :=
  have := AcceptsFrom.decision bound 0 [] elements input
  decidable_of_iff _ accepts_iff.symm

end Peephole

import Mathlib.Data.List.Forall2
import Peephole.Layout
import Peephole.Proofs.Binding.Resolution
import Peephole.Proofs.Outcomes

/-!
# Proofs/Binding/Ranges — bindings without the names of their aliases

A binding goes by an alias, and a set written in a match side gets one that is made up on the way.
What counts is the instructions that an element ranges over.  Where no element asks for a name that
could be made up, these can be read off each element by itself: `ranges` has no state, and
resolution finds what it says (`resolve_follows`).
-/

namespace Peephole

namespace Node

/-- The instruction or alias that a match element asks for by name. -/
def asked? (element : Node) : Option String :=
  match element.elementInstruction with
  | .ok body => if body.kind = .instruction then some body.text else none
  | .error _ => none

/-- An element with the name of an instruction asks the table for that name. -/
theorem asked?_of_instruction {element body : Node} (hbody : element.elementInstruction = .ok body)
    (hkind : body.kind = .instruction) : element.asked? = some body.text := by
  simp only [asked?, hbody, hkind, if_true]

/-- The names that the match side of a rule asks for. -/
def askedNames (rule : Node) : List String :=
  match rule.matchSide with
  | .ok pattern => pattern.children.filterMap asked?
  | .error _ => []

theorem mem_askedNames {rule pattern : Node} {name : String} (h : rule.matchSide = .ok pattern) :
    name ∈ rule.askedNames ↔ ∃ element ∈ pattern.children, element.asked? = some name := by
  rw [askedNames, h, List.mem_filterMap]

end Node

namespace Binding

/-- A name that is made up for a set written in a match side. -/
def IsMadeUp (name : String) : Prop := ∃ k, name = inlinedName k

theorem IsMadeUp.start {name : String} (h : IsMadeUp name) :
    "inlined_".toList <+: name.toList := by
  obtain ⟨k, rfl⟩ := h
  rw [inlinedName, String.toList_append]
  exact List.prefix_append _ _

/-- A match element that ranges over instructions. -/
structure Range where
  displayName : String
  position : Nat
  instructions : List String

/-- What an element ranges over, `none` if it stands for itself. -/
def rangeOf (table : AliasTable) (position : Nat) (element : Node) :
    Except Fault (Option Range) := do
  let displayName ← element.displayName
  let body ← element.elementInstruction
  match body.kind with
  | .instruction | .wildcard | .instructionSet =>
    return (listed? table body).map (⟨displayName, position, ·⟩)
  | kind => .error (.malformed kind .notAnInstruction)

/-- What elements range over, the first of which stands at `position`. -/
def ranges (table : AliasTable) (position : Nat) : List Node → Except Fault (List Range)
  | [] => .ok []
  | element :: more => do
    let range ← rangeOf table position element
    return range.toList ++ (← ranges table (position + 1) more)

/-- An element ranges over what a table knows of the name it asks for. -/
theorem rangeOf_eq_of_asked {table other : AliasTable} {element : Node}
    (h : ∀ name, element.asked? = some name → table.get? name = other.get? name) (position : Nat) :
    rangeOf table position element = rangeOf other position element := by
  rw [rangeOf, rangeOf]
  refine congrArg _ (funext fun displayName => ?_)
  cases hbody : element.elementInstruction with
  | error fault => rfl
  | ok body =>
    have hlisted : listed? table body = listed? other body := by
      unfold listed?
      split
      case isTrue => rfl
      case isFalse =>
        split
        case isTrue hkind => exact h body.text (Node.asked?_of_instruction hbody hkind)
        case isFalse => rfl
    dsimp only [bind, Except.bind]
    rw [hlisted]

/-- An element that can be looked up ranges over what is listed for it. -/
theorem rangeOf_of_listed {table : AliasTable} {element body : Node} {instructions : List String}
    (hbody : element.elementInstruction = .ok body)
    (hkind : body.kind = .instruction ∨ body.kind = .instructionSet)
    (hlisted : listed? table body = some instructions) (position : Nat) :
    rangeOf table position element
      = element.displayName >>= fun displayName =>
        .ok (some ⟨displayName, position, instructions⟩) := by
  rw [rangeOf, hbody]
  refine congrArg _ (funext fun displayName => ?_)
  dsimp only [bind, Except.bind]
  rw [hlisted]
  rcases hkind with hkind | hkind <;> rw [hkind] <;> rfl

/-- Match sides whose elements range over the same, place by place, have the same ranges. -/
theorem ranges_eq_of_forall₂ {table other : AliasTable} {elements others : List Node}
    (h : List.Forall₂ (fun element element' => ∀ position,
      rangeOf table position element = rangeOf other position element') elements others)
    (position : Nat) : ranges table position elements = ranges other position others := by
  induction h generalizing position with
  | nil => rfl
  | cons hfirst _ ih => rw [ranges, ranges, hfirst, ih]

/-- A binding is that of a range. -/
structure Follows (aliases : AliasTable) (binding : Binding) (range : Range) : Prop where
  displayName : binding.displayName = range.displayName
  position : binding.position = range.position
  instructions : aliases.get? binding.aliasName = some range.instructions

/-- **What was found so far follows the ranges.**  The aliases added are all made up. -/
structure Tracks (table : AliasTable) (found : Resolution) (ranges : List Range) : Prop where
  known : ∀ name, ¬ IsMadeUp name → found.table.get? name = table.get? name
  bindings : List.Forall₂ (Follows found.table) found.bindings ranges

variable {table : AliasTable} {found : Resolution} {before : List Range} {position : Nat}
  {element : Node} {elements : List Node}

theorem Tracks.add (h : Tracks table found before) {binding : Binding} {range : Range}
    (hfollows : Follows found.table binding range) :
    Tracks table { found with bindings := found.bindings ++ [binding] } (before ++ [range]) :=
  ⟨h.known, List.rel_append h.bindings (.cons hfollows .nil)⟩

/-- Naming a set under a free number keeps what is tracked. -/
theorem Tracks.insert (h : Tracks table found before) (instructions : List String) :
    Tracks table
      ⟨found.table.insert (inlinedName (freshIndex found.table found.used)) instructions,
        freshIndex found.table found.used, found.bindings⟩ before where
  known name hname := by
    rw [AliasTable.get?_insert, if_neg fun heq => hname ⟨_, heq⟩, h.known name hname]
  -- The name is free, so the aliases of earlier bindings stand for what they did.
  bindings := h.bindings.imp fun _ _ hfollows =>
    ⟨hfollows.displayName, hfollows.position, get?_insert_fresh hfollows.instructions⟩

/-- One more element. -/
theorem Tracks.step (h : Tracks table found before)
    (hasked : ∀ name, element.asked? = some name → ¬ IsMadeUp name) :
    EndsAlike (fun next range => Tracks table next (before ++ range.toList))
      (found.element position element).result (rangeOf table position element) := by
  rw [Resolution.element, rangeOf, Logged.result_bind, Logged.result_ofExcept]
  refine .bind_same fun displayName _ => ?_
  rw [Logged.result_bind, Logged.result_ofExcept]
  refine .bind_same fun body hbody => ?_
  have hsame : Tracks table found (before ++ []) := by rwa [List.append_nil]
  cases hkind : body.kind with
  | instruction =>
    have hlisted : listed? table body = table.get? body.text := by simp [listed?, hkind]
    have hknown : found.table.get? body.text = table.get? body.text :=
      h.known _ (hasked _ (Node.asked?_of_instruction hbody hkind))
    rw [hlisted, AliasTable.contains, hknown]
    cases hget : table.get? body.text with
    | none => exact .ok hsame
    | some set => exact .ok (h.add ⟨rfl, rfl, hknown.trans hget⟩)
  | wildcard =>
    have hlisted : listed? table body = none := by simp [listed?, hkind]
    rw [hlisted]
    exact .ok hsame
  | instructionSet =>
    have hlisted : listed? table body = some (firstOccurrences [] body.childTexts) := by
      simp [listed?, hkind]
    rw [hlisted]
    refine .ok ((h.insert body.childTexts).add ⟨rfl, rfl, ?_⟩)
    rw [AliasTable.get?_insert, if_pos rfl]
  | _ => exact .error _

/-- **Resolution finds the ranges**, from some element on. -/
theorem Tracks.run (h : Tracks table found before)
    (hasked : ∀ element ∈ elements, ∀ name, element.asked? = some name → ¬ IsMadeUp name) :
    EndsAlike (fun final more => Tracks table final (before ++ more))
      (found.elements position elements).result (ranges table position elements) := by
  induction elements generalizing found before position with
  | nil => exact .ok (by rwa [List.append_nil])
  | cons element elements ih =>
    rw [List.forall_mem_cons] at hasked
    rw [Resolution.elements, ranges, Logged.result_bind]
    refine (h.step hasked.1).bind fun next range hnext => ?_
    rw [← bind_pure (next.elements (position + 1) elements).result]
    refine (ih hnext hasked.2).bind fun final more hfinal => .ok ?_
    rwa [← List.append_assoc]

/-- **The bindings of a rule follow its ranges.** -/
theorem resolve_follows (table : AliasTable) {rule : Node}
    (hasked : ∀ name ∈ rule.askedNames, ¬ IsMadeUp name) :
    EndsAlike (fun found ranges => List.Forall₂ (Follows found.2) found.1 ranges)
      (resolve rule table).result
      (rule.matchSide >>= fun pattern => ranges table 0 pattern.children) := by
  rw [resolve, Logged.result_bind, Logged.result_ofExcept]
  refine .bind_same fun pattern hpattern => ?_
  have hstart : Tracks table ⟨table, 0, []⟩ [] := ⟨fun _ _ => rfl, .nil⟩
  rw [Logged.result_bind, ← bind_pure (ranges table 0 pattern.children)]
  refine (hstart.run fun element helement name hname => ?_).bind fun _ _ hfinal =>
    .ok hfinal.bindings
  exact hasked name ((Node.mem_askedNames hpattern).2 ⟨element, helement, hname⟩)

/-! ## Slots -/

/-- Two lists of bindings have the same slots: they may go by different aliases. -/
structure SameSlots (bindings others : List Binding) : Prop where
  displayNames : bindings.map displayName = others.map displayName
  positions : bindings.map Binding.position = others.map Binding.position

section SameSlots

variable {bindings others : List Binding} {aliases aliases' : AliasTable} {found : List Range}

/-- Bindings that follow the same ranges have the same slots. -/
theorem sameSlots_of_follows (h : List.Forall₂ (Follows aliases) bindings found)
    (h' : List.Forall₂ (Follows aliases') others found) : SameSlots bindings others := by
  induction h generalizing others with
  | nil =>
    obtain rfl := List.forall₂_nil_right_iff.1 h'
    exact ⟨rfl, rfl⟩
  | cons hfirst _ ih =>
    obtain ⟨other, more, hother, hmore, rfl⟩ := List.forall₂_cons_right_iff.1 h'
    obtain ⟨hnames, hpositions⟩ := ih hmore
    refine ⟨?_, ?_⟩
    · rw [List.map_cons, List.map_cons, hnames, hfirst.displayName, hother.displayName]
    · rw [List.map_cons, List.map_cons, hpositions, hfirst.position, hother.position]

theorem SameSlots.length_eq (h : SameSlots bindings others) : bindings.length = others.length := by
  simpa using congrArg List.length h.displayNames

/-- The same slots are found at each position. -/
theorem SameSlots.slotAt?_eq (h : SameSlots bindings others) (position : Nat) :
    slotAt? bindings position = slotAt? others position := by
  have hslot (bindings : List Binding) : slotAt? bindings position
      = (bindings.map Binding.position).findIdx? (· == position) := by
    rw [List.findIdx?_map]
    rfl
  rw [hslot, hslot, h.positions]

/-- The same slots are found under each name. -/
theorem SameSlots.slotNamed?_eq (h : SameSlots bindings others) (name : String) :
    slotNamed? bindings name = slotNamed? others name := by
  have hslot (bindings : List Binding) : slotNamed? bindings name
      = (bindings.map displayName).findIdx? (· == name) := by
    rw [List.findIdx?_map]
    rfl
  rw [hslot, hslot, h.displayNames]

end SameSlots

end Binding

end Peephole

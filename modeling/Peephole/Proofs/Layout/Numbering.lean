import Mathlib.Data.List.Count
import Mathlib.Data.List.Forall2
import Mathlib.Data.List.Induction
import Peephole.Proofs.Layout.Locals

/-!
# Proofs/Layout/Numbering — the locals of captures, on all trees

The first capture of a name is its argument.  A later one gets a number, and with it a local that
must not be taken for another capture: a rule may capture `a_2` beside `a`, and in a tree that no
text spells a name is any text at all.  So numbers are searched for (`Searches`), upwards from the
last one given to the name, and past all captured names.

An `Occurrence` is a capture with its number.  The lines of a match side are those of its elements,
each fixed by its occurrences (`Block.steps`), and the occurrences are numbered so that all locals
differ (`captures_wellNumbered`).
-/

namespace Peephole

namespace MatchStep

/-- The local that a line declares for an argument. -/
def argument? : MatchStep → Option String
  | argument name => some name
  | _ => none

/-- Whether a line gives up unless a local equals another. -/
def compares (name : String) : MatchStep → Bool
  | equal later _ => later == name
  | _ => false

end MatchStep

namespace Layout

/-! ## The search for a number -/

/-- **The search for a free number**, from one number on: those with which the name is captured are
passed over one by one. -/
inductive Searches (names : List String) (name : String) : Nat → Nat → Prop where
  | found {number : Nat} (hfree : name ++ "_" ++ toString number ∉ names) :
    Searches names name number number
  | next {number last : Nat} (htaken : name ++ "_" ++ toString number ∈ names)
    (hmore : Searches names name (number + 1) last) : Searches names name number last

section Searches

variable {names : List String} {name : String} {start number : Nat}

theorem Searches.le (h : Searches names name start number) : start ≤ number := by
  induction h with
  | found => exact Nat.le_refl _
  | next _ _ ih => exact Nat.le_of_succ_le ih

theorem Searches.not_mem (h : Searches names name start number) :
    name ++ "_" ++ toString number ∉ names := by
  induction h with
  | found hfree => exact hfree
  | next _ _ ih => exact ih

/-- The first free number of a range is what a search finds. -/
theorem searches_of_find? {length : Nat}
    (h : (List.range' start length).find? (fun k => !names.contains (name ++ "_" ++ toString k))
      = some number) : Searches names name start number := by
  induction length generalizing start with
  | zero => simp at h
  | succ length ih =>
    rw [List.range'_succ, List.find?_cons] at h
    split at h
    case h_1 hfree =>
      obtain rfl := Option.some.inj h
      exact .found (by simpa using hfree)
    case h_2 htaken => exact .next (by simpa using htaken) (ih h)

/-- **The search ends**, with the number that is given. -/
theorem searches_freshNumber (names : List String) (name : String) (used : Nat) :
    Searches names name (used + 1) (freshNumber names name used) := by
  have hspell : Function.Injective fun k : Nat => name ++ "_" ++ toString k :=
    fun _ _ heq => (numbered_inj heq).2
  obtain ⟨number, hfind, -⟩ := exists_find?_range'_free hspell names used
  rw [freshNumber, hfind]
  exact searches_of_find? hfind

end Searches

/-! ## Occurrences -/

/-- A capture of a match side. -/
inductive Occurrence where
  /-- The first capture of a name. -/
  | first (name : String)
  /-- A later capture of a name, and its number. -/
  | again (name : String) (number : Nat)
deriving DecidableEq

namespace Occurrence

/-- The name of the capture. -/
def name : Occurrence → String
  | first name => name
  | again name _ => name

/-- The number of a capture; the first of a name counts as 1. -/
def number : Occurrence → Nat
  | first _ => 1
  | again _ number => number

/-- The local of a capture. -/
def localName : Occurrence → String
  | first name => argumentLocal name
  | again name number => argumentLocal (name ++ "_" ++ toString number)

/-- The line by which a later capture must equal the first. -/
def equality? : Occurrence → Option MatchStep
  | first _ => none
  | again name number =>
    some (.equal (argumentLocal (name ++ "_" ++ toString number)) (argumentLocal name))

/-- **A capture that comes next**, after the given numbers. -/
def Fits (names : List String) (numbers : String → Option Nat) : Occurrence → Prop
  | first name => numbers name = none
  | again name number => ∃ used, numbers name = some used ∧ number = freshNumber names name used

end Occurrence

/-- The numbers given after a capture. -/
def note (numbers : String → Option Nat) (capture : Occurrence) : String → Option Nat :=
  Function.update numbers capture.name (some capture.number)

/-- **Captures that come one after the other.** -/
def Fitting (names : List String) : (String → Option Nat) → List Occurrence → Prop
  | _, [] => True
  | numbers, capture :: more =>
    capture.Fits names numbers ∧ Fitting names (note numbers capture) more

variable {names : List String} {numbers after : String → Option Nat} {name : String} {used : Nat}
  {capture : Occurrence} {captures more : List Occurrence}

/-- Captures fit one after the other if the later ones fit what the earlier ones used. -/
theorem fitting_append :
    Fitting names numbers (captures ++ more) ↔
      Fitting names numbers captures ∧ Fitting names (captures.foldl note numbers) more := by
  induction captures generalizing numbers with
  | nil => simp [Fitting]
  | cons capture captures ih =>
    simp only [List.cons_append, Fitting, List.foldl_cons, ih, and_assoc]

/-- What captures declare and compare is given by their occurrences. -/
theorem Capturing.exists_fitting {texts locals : List String} {equalities : List MatchStep}
    (h : Capturing names numbers texts locals equalities after) :
    ∃ captures : List Occurrence, captures.map Occurrence.name = texts ∧
      captures.map Occurrence.localName = locals ∧
      captures.filterMap Occurrence.equality? = equalities ∧
      captures.foldl note numbers = after ∧ Fitting names numbers captures := by
  induction h with
  | done numbers => exact ⟨[], rfl, rfl, rfl, rfl, trivial⟩
  | @first _ _ name _ _ _ hnew _ ih =>
    obtain ⟨captures, rfl, rfl, rfl, rfl, hfitting⟩ := ih
    exact ⟨.first name :: captures, rfl, rfl, rfl, rfl, hnew, hfitting⟩
  | @again _ _ name used _ _ _ hused _ ih =>
    obtain ⟨captures, rfl, rfl, rfl, rfl, hfitting⟩ := ih
    exact ⟨.again name (freshNumber names name used) :: captures, rfl, rfl, rfl, rfl,
      ⟨used, hused, rfl⟩, hfitting⟩

/-- Fitting captures have their locals, and equalities for the repeated ones. -/
theorem Fitting.capturing (h : Fitting names numbers captures) :
    Capturing names numbers (captures.map Occurrence.name) (captures.map Occurrence.localName)
      (captures.filterMap Occurrence.equality?) (captures.foldl note numbers) := by
  induction captures generalizing numbers with
  | nil => exact .done _
  | cons capture captures ih =>
    obtain ⟨hfits, hmore⟩ := h
    cases capture with
    | first name => exact .first hfits (ih hmore)
    | again name number =>
      obtain ⟨used, hused, rfl⟩ := hfits
      exact .again hused (ih hmore)

/-! ## Numbers -/

/-- Each number is greater than those used before it. -/
theorem Occurrence.Fits.lt_number (h : capture.Fits names numbers)
    (hused : numbers capture.name = some used) : used < capture.number := by
  cases capture with
  | first name => cases h.symm.trans hused
  | again name number =>
    obtain ⟨found, hfound, rfl⟩ := h
    obtain rfl := Option.some.inj (hfound.symm.trans hused)
    exact (freshNumber_spec names name found).1

theorem Occurrence.Fits.number_pos (h : capture.Fits names numbers) : 0 < capture.number := by
  cases capture with
  | first name => exact Nat.one_pos
  | again name number =>
    obtain ⟨used, -, rfl⟩ := h
    exact Nat.zero_lt_of_lt (freshNumber_spec names name used).1

/-- What is known of a name after captures is the number of the last one that bears it. -/
theorem exists_last_of_foldl_note (h : captures.foldl note (fun _ => none) name = some used) :
    ∃ front earlier back, captures = front ++ earlier :: back ∧ earlier.name = name ∧
      earlier.number = used ∧ name ∉ back.map Occurrence.name := by
  induction captures using List.reverseRecOn with
  | nil => cases h
  | append_singleton captures capture ih =>
    rw [List.foldl_append, List.foldl_cons, List.foldl_nil] at h
    by_cases hname : name = capture.name
    · subst hname
      rw [note, Function.update_self] at h
      exact ⟨captures, capture, [], rfl, rfl, Option.some.inj h, by simp⟩
    · rw [note, Function.update_of_ne hname] at h
      obtain ⟨front, earlier, back, rfl, hearlier, hnumber, hback⟩ := ih h
      exact ⟨front, earlier, back ++ [capture], by simp, hearlier, hnumber, by simp [hback, hname]⟩

/-- Captures get higher numbers than those given before to their names. -/
theorem Fitting.lt_number (h : Fitting names numbers captures) (hused : numbers name = some used) :
    ∀ capture ∈ captures, capture.name = name → used < capture.number := by
  induction captures generalizing numbers used with
  | nil => simp
  | cons first captures ih =>
    obtain ⟨hfits, hmore⟩ := h
    rw [List.forall_mem_cons]
    refine ⟨fun hname => hfits.lt_number (hname ▸ hused), fun capture hcapture hname => ?_⟩
    by_cases hfirst : first.name = name
    · have hknown : note numbers first name = some first.number := by
        rw [note, hfirst, Function.update_self]
      exact (hfits.lt_number (hfirst ▸ hused)).trans (ih hmore hknown capture hcapture hname)
    · have hknown : note numbers first name = some used := by
        rwa [note, Function.update_of_ne (Ne.symm hfirst)]
      exact ih hmore hknown capture hcapture hname

/-- The numbers of one name rise. -/
theorem Fitting.pairwise (h : Fitting names numbers captures) :
    captures.Pairwise fun earlier later =>
      earlier.name = later.name → earlier.number < later.number := by
  induction captures generalizing numbers with
  | nil => exact .nil
  | cons first captures ih =>
    refine .cons (fun capture hcapture hname => ?_) (ih h.2)
    have hknown : note numbers first first.name = some first.number := Function.update_self ..
    exact h.2.lt_number hknown capture hcapture hname.symm

/-- **How the captures of a match side are numbered.** -/
structure WellNumbered (names : List String) (captures : List Occurrence) : Prop where
  /-- A capture without a number is the first of its name. -/
  first : ∀ {before behind name}, captures = before ++ .first name :: behind →
    name ∉ before.map Occurrence.name
  /-- The number of a later capture is searched for from that of the last one before it. -/
  again : ∀ {before behind name number}, captures = before ++ .again name number :: behind →
    ∃ front earlier back, before = front ++ earlier :: back ∧ earlier.name = name ∧
      name ∉ back.map Occurrence.name ∧ Searches names name (earlier.number + 1) number
  free : ∀ {name number}, .again name number ∈ captures →
    2 ≤ number ∧ name ++ "_" ++ toString number ∉ names
  increasing : captures.Pairwise fun earlier later =>
    earlier.name = later.name → earlier.number < later.number
  distinct : (captures.map Occurrence.localName).Nodup

/-- A later capture takes its number from a search behind the last one before it. -/
theorem Fitting.exists_searches {before behind : List Occurrence} {number : Nat}
    (h : Fitting names (fun _ => none) (before ++ .again name number :: behind)) :
    ∃ front earlier back, before = front ++ earlier :: back ∧ earlier.name = name ∧
      name ∉ back.map Occurrence.name ∧ Searches names name (earlier.number + 1) number := by
  obtain ⟨-, ⟨used, hused, rfl⟩, -⟩ := fitting_append.1 h
  obtain ⟨front, earlier, back, hbefore, hearlier, rfl, hback⟩ := exists_last_of_foldl_note hused
  exact ⟨front, earlier, back, hbefore, hearlier, hback, searches_freshNumber ..⟩

/-- **Captures that fit from the start are well-numbered.** -/
theorem Fitting.wellNumbered (h : Fitting names (fun _ => none) captures)
    (hnames : ∀ capture ∈ captures, capture.name ∈ names) : WellNumbered names captures where
  first hsplit hname := by
    obtain ⟨hbefore, hnew, -⟩ := fitting_append.1 (hsplit ▸ h)
    exact (hbefore.capturing.ne_none_iff _).2 (.inr hname) hnew
  again hsplit := (hsplit ▸ h).exists_searches
  free hmem := by
    obtain ⟨before, behind, rfl⟩ := List.append_of_mem hmem
    obtain ⟨front, earlier, back, rfl, -, -, hsearch⟩ := h.exists_searches
    rw [List.append_assoc] at h
    have hpos := (fitting_append.1 h).2.1.number_pos
    have hle := hsearch.le
    exact ⟨by omega, hsearch.not_mem⟩
  increasing := h.pairwise
  distinct := h.capturing.nodup (by simpa using hnames)

/-! ## Lines -/

/-- An element with its captures. -/
structure Block where
  previous : Option String
  cursor : String
  opcode : Option Opcode
  captures : List Occurrence

/-- **The lines of an element**: its cursor, the locals of its captures, its guard, and one equality
for each capture that is not the first of its name. -/
def Block.steps (block : Block) : List MatchStep :=
  elementSteps block.previous block.cursor (block.captures.map Occurrence.localName) block.opcode
    (block.captures.filterMap Occurrence.equality?)

/-- The lines of elements, from their captures. -/
theorem LaidOut.exists_blocks {bindings : List Binding} {position : Nat}
    {previous : Option String} {taken : List String} {nodes : List Node} {steps : List MatchStep}
    {elements : List Element}
    (h : LaidOut names bindings position previous taken numbers nodes steps elements after) :
    ∃ blocks : List Block, steps = blocks.flatMap Block.steps ∧
      List.Forall₂ (fun node block => block.captures.map Occurrence.name = node.childTexts.drop 1)
        nodes blocks ∧
      Fitting names numbers (blocks.flatMap Block.captures) := by
  induction h with
  | done => exact ⟨[], rfl, .nil, trivial⟩
  | @element _ previous _ _ _ _ _ _ _ _ cursor _ _ _ opcode _ _ _ hcaptures _ _ ih =>
    obtain ⟨blocks, rfl, hblocks, hfitting⟩ := ih
    obtain ⟨captures, hnames, rfl, rfl, rfl, hfirst⟩ := hcaptures.exists_fitting
    exact ⟨⟨previous, cursor, opcode, captures⟩ :: blocks, rfl, .cons hnames hblocks,
      fitting_append.2 ⟨hfirst, hfitting⟩⟩

/-- Elements capture the names of their occurrences. -/
theorem map_name_flatMap {nodes : List Node} {blocks : List Block}
    (h : List.Forall₂ (fun node block =>
      block.captures.map Occurrence.name = node.childTexts.drop 1) nodes blocks) :
    (blocks.flatMap Block.captures).map Occurrence.name = capturedNames nodes := by
  induction h with
  | nil => rfl
  | cons hfirst _ ih =>
    rw [List.flatMap_cons, List.map_append, hfirst, ih]
    rfl

/-- The equality of a repeated capture compares its local with that of the first one. -/
theorem Occurrence.eq_equal_of_equality? {step : MatchStep} (h : capture.equality? = some step) :
    step = .equal capture.localName (argumentLocal capture.name) := by
  cases capture with
  | first name => cases h
  | again name number => exact (Option.some.inj h).symm

/-- An element declares the locals of its captures. -/
theorem Block.filterMap_argument? (block : Block) :
    block.steps.filterMap MatchStep.argument? = block.captures.map Occurrence.localName := by
  have hguard : (guardStep block.cursor (block.captures.map Occurrence.localName)
      block.opcode).argument? = none := by cases block.opcode <;> rfl
  have hequalities : (block.captures.filterMap Occurrence.equality?).filterMap MatchStep.argument?
      = [] := by
    refine List.filterMap_eq_nil_iff.2 fun step hstep => ?_
    obtain ⟨capture, -, hcapture⟩ := List.mem_filterMap.1 hstep
    rw [Occurrence.eq_equal_of_equality? hcapture]
    rfl
  rw [steps, elementSteps, List.filterMap_cons_none rfl, List.filterMap_append,
    List.filterMap_cons_none hguard, hequalities, List.append_nil, List.filterMap_map]
  exact List.filterMap_some

/-- The lines of an element that compare are its equalities. -/
theorem Block.filter_compares (block : Block) (name : String) :
    block.steps.filter (·.compares name)
      = (block.captures.filterMap Occurrence.equality?).filter (·.compares name) := by
  have hguard : (guardStep block.cursor (block.captures.map Occurrence.localName)
      block.opcode).compares name = false := by cases block.opcode <;> rfl
  have hlocals : ((block.captures.map Occurrence.localName).map MatchStep.argument).filter
      (·.compares name) = [] := by
    simp [MatchStep.compares]
  rw [steps, elementSteps, List.filter_cons_of_neg (by simp [MatchStep.compares]),
    List.filter_append, hlocals, List.filter_cons_of_neg (by simp [hguard]), List.nil_append]

/-- Where locals differ, each is compared by the equality of its own capture. -/
theorem filter_compares_eq (hdistinct : (captures.map Occurrence.localName).Nodup)
    (hmem : capture ∈ captures) :
    (captures.filterMap Occurrence.equality?).filter (·.compares capture.localName)
      = capture.equality?.toList := by
  have hown : captures.filter (·.localName == capture.localName) = [capture] := by
    have hsame : ∀ other ∈ captures,
        (other.localName == capture.localName) = (other == capture) := fun other hother => by
      rw [Bool.eq_iff_iff, beq_iff_eq, beq_iff_eq]
      exact ⟨List.inj_on_of_nodup_map hdistinct hother hmem, congrArg _⟩
    rw [List.filter_congr hsame, List.filter_beq,
      List.count_eq_one_of_mem (hdistinct.of_map _) hmem]
    rfl
  have hswap : (captures.filterMap Occurrence.equality?).filter (·.compares capture.localName)
      = (captures.filter (·.localName == capture.localName)).filterMap Occurrence.equality? := by
    rw [List.filter_filterMap, List.filterMap_filter]
    refine List.filterMap_congr fun other _ => ?_
    cases hother : other.equality? with
    | none => simp
    | some step =>
      rw [Occurrence.eq_equal_of_equality? hother]
      rfl
  rw [hswap, hown]
  cases capture <;> rfl

/-- **Locals of captures are fresh, on all trees.**  The lines of a match side are those of its
elements.  Each capture has one local: `arg_x` for the first of a name `x`, and `arg_x_k` for a
later one, where `k` is at least 2, grows with the captures of `x`, and makes no captured name.  It
is found by a search that ends.  All locals differ, and behind the guard of its element a later one
is compared with `arg_x` once. -/
theorem captures_wellNumbered {rule : Node} {bindings : List Binding} {side : MatchSide}
    (h : MatchSide.ofRule rule bindings = .ok side) :
    ∃ pattern blocks, rule.matchSide = .ok pattern ∧
      side.steps = blocks.flatMap Block.steps ∧
      List.Forall₂ (fun element block =>
        block.captures.map Occurrence.name = element.childTexts.drop 1) pattern.children blocks ∧
      side.steps.filterMap MatchStep.argument?
        = (blocks.flatMap Block.captures).map Occurrence.localName ∧
      WellNumbered (capturedNames pattern.children) (blocks.flatMap Block.captures) ∧
      ∀ capture ∈ blocks.flatMap Block.captures,
        side.steps.filter (·.compares capture.localName) = capture.equality?.toList := by
  obtain ⟨pattern, hpattern, -⟩ := bind_eq_ok_iff.1 h
  obtain ⟨numbers, -, hlaid⟩ := laidOut_of_ofRule hpattern h
  obtain ⟨blocks, hsteps, hblocks, hfitting⟩ := hlaid.exists_blocks
  have hnumbered := hfitting.wellNumbered fun capture hcapture => by
    rw [← map_name_flatMap hblocks]
    exact List.mem_map_of_mem hcapture
  refine ⟨pattern, blocks, hpattern, hsteps, hblocks, ?_, hnumbered, fun capture hcapture => ?_⟩
  · rw [hsteps, List.filterMap_flatMap, List.map_flatMap]
    simp only [Block.filterMap_argument?]
  · rw [hsteps, List.filter_flatMap, ← filter_compares_eq hnumbered.distinct hcapture,
      List.filterMap_flatMap, List.filter_flatMap]
    simp only [Block.filter_compares]

namespace Suffixed

/-- An element that captures arguments. -/
def element (captures : List String) : Node :=
  .branch .unnamedElement (.leaf .instruction "op" :: captures.map (.leaf .reference))

/-- The number 2 is not free for `a`. -/
def rule : Node :=
  .mk .rule "p" [.branch .pattern [element ["a"], element ["a_2", "a"], element ["a", "a_2"]],
    .branch .replacement []]

end Suffixed

/-- Where a rule captures `a_2`, later captures of `a` get the numbers 3 and 4. -/
theorem captures_wellNumbered_suffixed :
    ∃ side, MatchSide.ofRule Suffixed.rule [] = .ok side ∧
      side.steps.filterMap MatchStep.argument?
        = ["arg_a", "arg_a_2", "arg_a_3", "arg_a_4", "arg_a_2_2"] ∧
      (side.steps.filterMap MatchStep.argument?).Nodup := by
  obtain ⟨side, hside⟩ : ∃ side, MatchSide.ofRule Suffixed.rule [] = .ok side := ⟨_, rfl⟩
  obtain ⟨pattern, blocks, -, -, -, hlocals, hnumbered, -⟩ := captures_wellNumbered hside
  refine ⟨side, hside, ?_, hlocals ▸ hnumbered.distinct⟩
  obtain rfl := Except.ok.inj hside
  decide +kernel

end Layout

end Peephole

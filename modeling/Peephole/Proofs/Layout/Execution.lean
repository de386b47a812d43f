import Peephole.Proofs.Binding.Resolution
import Peephole.Proofs.Layout.Matching

/-!
# Proofs/Layout/Execution — the text of a match side matches what the match side says

Running the lines of a match side is about data.  Here it is about text: for a rule of a pattern
file and words for its slots, the text of the match side reads back as those lines.  A matcher
starts with nothing declared, so it reaches the first element.
-/

namespace Peephole

open C

/-- The cursor of an element at a position. -/
def Node.cursor (element : Node) (position : Nat) : String :=
  cursorLocal (if element.kind = .namedElement then element.text else toString (position + 1))

/-- The match of elements with the instructions they stand next to. -/
def Match.ofInput (elements : List Node) (input : List Instr) : Match where
  elements
  input
  arguments name := ((capturesOf elements input).lookup name).getD 0

/-- **The state after a match side has matched**: nothing has changed but the locals, every cursor
is at its instruction, and the first capture of each name is in its local. -/
structure FallenThrough (elements : List Node) (input : List Instr) (state last : State) :
    Prop where
  store : last.store = state.store
  start : last.start = state.start
  cursors : ∀ (position : Nat) (element : Node), elements[position]? = some element →
    ∃ node, skip state.store position state.start = some node ∧
      last.locals (element.cursor position) = some (some (.node node))
  arguments : ∀ name value, (capturesOf elements input).lookup name = some value →
    last.locals (argumentLocal name) = some (some (.int value))

namespace Layout

variable {names : List String} {bindings : List Binding} {position : Nat} {previous : Option String}
  {taken : List String} {numbers after : String → Option Nat} {nodes : List Node}
  {steps : List MatchStep} {elements : List Element}

/-- The cursor of an element is the one that its name and position make. -/
theorem LaidOut.cursor_eq
    (h : LaidOut names bindings position previous taken numbers nodes steps elements after)
    {index : Nat} {node : Node} (hnode : nodes[index]? = some node) :
    ∃ element, elements[index]? = some element ∧
      element.cursor = node.cursor (position + index) := by
  induction h generalizing index with
  | done => simp at hnode
  | element _ hcursor _ _ _ ih =>
    cases index with
    | zero =>
      obtain rfl := Option.some.inj hnode
      refine ⟨_, rfl, ?_⟩
      rcases hcursor with ⟨hkind, -⟩ | hkind
      · simp [Node.cursor, hkind]
      · simp [Node.cursor, hkind]
    | succ index =>
      obtain ⟨element, helement, hcursor⟩ := ih hnode
      refine ⟨element, helement, hcursor.trans ?_⟩
      rw [Nat.add_assoc, Nat.add_comm 1]

/-- Before the first element, nothing is declared. -/
theorem Reached.initial {input : List Instr} {state : State}
    (hholds : Holds state.store state.start input) (hlocals : ∀ name, state.locals name = none) :
    Reached names input 0 none [] (fun _ => none) [] state where
  holds := hholds
  behind := rfl
  clear name _ := hlocals name
  knows := ⟨fun _ _ _ hfirst => absurd hfirst (by simp), fun _ => by simp,
    fun _ _ h => by simp at h⟩

end Layout

namespace MatchSide

variable {rule pattern : Node} {bindings : List Binding} {side : MatchSide} {chosen : List String}
  {input : List Instr} {state : State}

theorem mem_capturedNames {elements : List Node} :
    ∀ node ∈ elements, ∀ text ∈ node.childTexts.drop 1, text ∈ Layout.capturedNames elements :=
  fun node hnode _ htext => List.mem_flatMap.2 ⟨node, hnode, htext⟩

/-- **The text of a match side falls through on the instructions it accepts, and returns 0 on all
others.**  After it, the replacement can run. -/
theorem run_template (arith : Arith) (hrule : IsRule rule)
    (hpattern : rule.matchSide = .ok pattern)
    (hside : MatchSide.ofRule rule bindings = .ok side) (hlength : chosen.length = bindings.length)
    (hchosen : ∀ instruction ∈ chosen, WordChars instruction)
    (hholds : Holds state.store state.start input) (hlocals : ∀ name, state.locals name = none) :
    (Accepts pattern.children (Binding.fixed bindings chosen) input ∧
      ∃ last, run arith (side.template.instantiate chosen) state = some (.running last) ∧
        FallenThrough pattern.children input state last ∧
        Matched side.layout (.ofInput pattern.children input) last) ∨
    ¬ Accepts pattern.children (Binding.fixed bindings chosen) input ∧
      ∃ last, run arith (side.template.instantiate chosen) state = some (.returned 0 last) ∧
        last.store = state.store ∧ last.start = state.start := by
  obtain ⟨numbers, hnumbers, hlaid⟩ := Layout.laidOut_of_ofRule hpattern hside
  obtain ⟨-, -, hall, -⟩ := hrule
  obtain rfl := Except.ok.inj hpattern
  have hread := read_template (hlaid.readable hall (by simp) hchosen)
  have hrun : run arith (side.template.instantiate chosen) state
      = execAll arith (side.steps.map (MatchStep.toStmt chosen)) state := by
    rw [run, hread]
    rfl
  rw [hrun, accepts_iff]
  obtain ⟨haccepts, last, hexec, hcontinues, hknows, hcursors⟩ | hrefuses :=
    hlaid.run hall mem_capturedNames hlength (.initial hholds hlocals)
  · refine .inl ⟨haccepts, last, hexec, ⟨hcontinues.store, hcontinues.start, ?_, hknows.value⟩, ?_⟩
    · intro position node hnode
      obtain ⟨element, helement, hcursor⟩ := hlaid.cursor_eq hnode
      obtain ⟨address, hskip, hlocal⟩ := hcursors position element helement
      rw [Nat.zero_add] at hskip hcursor
      rw [hcursor] at hlocal
      exact ⟨address, hskip, hlocal⟩
    · refine ⟨?_, ?_, fun position element helement => ?_, fun name hname => ?_, fun node => ?_⟩
      · rw [hcontinues.store, hcontinues.start]
        exact hholds
      · rw [Layout.consumed, hlaid.length_eq]
        exact haccepts.enough
      · obtain ⟨address, hskip, hlocal⟩ := hcursors position element helement
        rw [Nat.zero_add, ← hcontinues.store, ← hcontinues.start] at hskip
        exact ⟨address, hskip, hlocal⟩
      · obtain ⟨value, hvalue⟩ := Option.ne_none_iff_exists'.1
          (mt (hknows.numbered name).2 ((hnumbers name).1 hname))
        rw [hknows.value name value hvalue, Match.ofInput]
        simpa using congrArg (Option.getD · 0) hvalue.symm
      · rw [hcontinues.frame _ (Layout.not_fresh_nodeLocal node), hlocals]
  · exact .inr hrefuses

end MatchSide

/-- **The text of a match side matches what the match side says.**  It falls through exactly on the
instructions that the match side accepts, with one instruction fixed for each element that ranges
over a set; then every cursor and captured argument is in its local, and the replacement can run.
On all other instructions it returns 0 and has done nothing. -/
theorem run_matchSide_iff_accepts (arith : Arith) {source : String} {tree rule pattern : Node}
    (hparse : parse source = .ok tree) (hrule : rule ∈ tree.rules)
    (hpattern : rule.matchSide = .ok pattern) {table aliases : AliasTable} {bindings : List Binding}
    (hresolve : (Binding.resolve rule table).result = .ok (bindings, aliases)) {side : MatchSide}
    (hside : MatchSide.ofRule rule bindings = .ok side) {chosen : List String}
    (hlength : chosen.length = bindings.length)
    (hchosen : ∀ instruction ∈ chosen, WordChars instruction) {input : List Instr} {state : State}
    (hholds : Holds state.store state.start input) (hlocals : ∀ name, state.locals name = none) :
    ((∃ last, run arith (side.template.instantiate chosen) state = some (.running last)) ↔
      Accepts pattern.children (Binding.fixed bindings chosen) input) ∧
    (∀ last, run arith (side.template.instantiate chosen) state = some (.running last) →
      FallenThrough pattern.children input state last ∧
        Matched side.layout (.ofInput pattern.children input) last) ∧
    (¬ Accepts pattern.children (Binding.fixed bindings chosen) input →
      ∃ last, run arith (side.template.instantiate chosen) state = some (.returned 0 last) ∧
        last.store = state.store ∧ last.start = state.start) ∧
    ∀ (position : Nat) (element body : Node), pattern.children[position]? = some element →
      element.elementInstruction = .ok body →
      ((Binding.fixed? bindings chosen position).isSome = true ↔
        Binding.Ranges table bindings position body) := by
  have hisRule := isRule_of_mem_rules (isProgram_of_parse hparse) hrule
  have hranges : ∀ (position : Nat) (element body : Node),
      pattern.children[position]? = some element → element.elementInstruction = .ok body →
      ((Binding.fixed? bindings chosen position).isSome = true ↔
        Binding.Ranges table bindings position body) := by
    intro position element body helement hbody
    have hbound := (Binding.resolves_of_resolve hpattern hresolve).bound_iff helement hbody
    rw [Nat.zero_add] at hbound
    rw [← hbound, Binding.isSome_fixed?_iff hlength]
  obtain ⟨haccepts, last, hrun, hafter⟩ | ⟨hrefuses, last, hrun, hlast⟩ :=
    MatchSide.run_template arith hisRule hpattern hside hlength hchosen hholds hlocals
  · refine ⟨iff_of_true ⟨last, hrun⟩ haccepts, fun other hother => ?_, absurd haccepts, hranges⟩
    rw [hrun, Option.some.injEq, Outcome.running.injEq] at hother
    rwa [← hother]
  · have hnot : ∀ other, run arith (side.template.instantiate chosen) state
        ≠ some (.running other) := fun other hother => by
      rw [hrun, Option.some.injEq] at hother
      cases hother
    exact ⟨iff_of_false (fun ⟨other, hother⟩ => hnot other hother) hrefuses,
      fun other hother => absurd hother (hnot other), fun _ => ⟨last, hrun, hlast⟩, hranges⟩

/-! ## A run

The rule captures `a` twice and `a_2` once, so that the second `a` becomes `a_3`. -/

namespace Doubled

/-- A rule with an alias, a set, a repeated capture and a wildcard. -/
def source : String :=
  "set load = \x7b iload, aload \x7d;" ++
    "pattern double: x: load(a) \x7b iadd, isub \x7d(a, a_2) _ --> \x7b x; \x7d"

/-- The alias of the file. -/
def declaration : Node :=
  .branch .declaration
    [.leaf .identifier "load",
      .branch .instructionSet [.leaf .instruction "iload", .leaf .instruction "aload"]]

/-- The match side of the rule. -/
def pattern : Node :=
  .branch .pattern
    [.mk .namedElement "x" [.leaf .instruction "load", .leaf .reference "a"],
      .branch .unnamedElement
        [.branch .instructionSet [.leaf .instruction "iadd", .leaf .instruction "isub"],
          .leaf .reference "a", .leaf .reference "a_2"],
      .branch .unnamedElement [.leaf .wildcard ""]]

/-- The rule, which copies its first element. -/
def rule : Node :=
  .mk .rule "double" [pattern, .branch .replacement [.leaf .reuse "x"]]

theorem parse_source : parse source = .ok (.branch .program [declaration, rule]) :=
  eq_ok_of_toOption (by decide +kernel)

/-- What the file declares. -/
def table : AliasTable := AliasTable.empty.insert "load" ["iload", "aload"]

/-- The alias and the set are bound, the wildcard is not. -/
def bindings : List Binding := [⟨"x", "load", 0⟩, ⟨"unnamed", "inlined_1", 1⟩]

/-- A list that the rule accepts. -/
def input : List Instr := [⟨"aload", [3]⟩, ⟨"isub", [3, 7]⟩, ⟨"dup", []⟩]

/-- The list `aload 3; isub 3 7; dup`, and nothing declared. -/
def state : State where
  store := [⟨⟨"aload", [3]⟩, some 1⟩, ⟨⟨"isub", [3, 7]⟩, some 2⟩, ⟨⟨"dup", []⟩, none⟩]
  start := some 0
  locals _ := none

theorem resolve_rule : (Binding.resolve rule table).result
    = .ok (bindings, table.insert "inlined_1" ["iadd", "isub"]) :=
  rfl

theorem holds : Holds state.store state.start input := by
  have hlast := @Holds.cons state.store 2 ⟨⟨"dup", []⟩, none⟩ [] rfl .nil
  have hmore := @Holds.cons state.store 1 ⟨⟨"isub", [3, 7]⟩, some 2⟩ _ rfl hlast
  exact @Holds.cons state.store 0 ⟨⟨"aload", [3]⟩, some 1⟩ _ rfl hmore

end Doubled

/-- The matcher of `aload` and `isub` captures 3 and 7, that of `iload` and `isub` gives up. -/
theorem run_matchSide_iff_accepts_double :
    ∃ side, MatchSide.ofRule Doubled.rule Doubled.bindings = .ok side ∧
      (∃ last, run .unbounded (side.template.instantiate ["aload", "isub"]) Doubled.state
          = some (.running last) ∧
        last.locals "instr_2" = some (some (.node (some 1))) ∧
        last.locals "arg_a" = some (some (.int 3)) ∧
        last.locals "arg_a_2" = some (some (.int 7))) ∧
      ∃ last, run .unbounded (side.template.instantiate ["iload", "isub"]) Doubled.state
        = some (.returned 0 last) := by
  obtain ⟨side, hside⟩ : ∃ side, MatchSide.ofRule Doubled.rule Doubled.bindings = .ok side :=
    ⟨_, rfl⟩
  have hloads : ["aload", "isub"].length = Doubled.bindings.length := rfl
  have hyes := run_matchSide_iff_accepts .unbounded Doubled.parse_source (by decide) rfl
    Doubled.resolve_rule hside hloads (forall_wordChars_of_all (by decide)) Doubled.holds
    fun _ => rfl
  have hother : ["iload", "isub"].length = Doubled.bindings.length := rfl
  have hno := run_matchSide_iff_accepts .unbounded Doubled.parse_source (by decide) rfl
    Doubled.resolve_rule hside hother (forall_wordChars_of_all (by decide)) Doubled.holds
    fun _ => rfl
  obtain ⟨last, hrun⟩ := hyes.1.2 (by decide)
  have hafter := (hyes.2.1 last hrun).1
  obtain ⟨other, hreturned, -⟩ := hno.2.2.1 (by decide)
  obtain ⟨node, hskip, hcursor⟩ := hafter.cursors 1 _ rfl
  obtain rfl := Option.some.inj hskip
  refine ⟨side, hside, ⟨last, hrun, hcursor, ?_, ?_⟩, other, hreturned⟩
  · exact hafter.arguments "a" 3 rfl
  · exact hafter.arguments "a_2" 7 rfl

end Peephole

import Peephole.Proofs.Layout.LaidOut
import Peephole.Proofs.Replacement.Simulation

/-!
# Proofs/Replacement/Execution — the text of a replacement does what the replacement says

The simulation is about code as data.  Here it is about text: for a rule of a pattern file, the text
of the body reads back as that code, and a match side always gives the replacement cursors that are
locals of their own and elements under the names of the pattern.
-/

namespace Peephole

open C

/-- What a match side makes known fits every match of it. -/
theorem Scene.fits_of_matched {rule pattern : Node} {bindings : List Binding} {side : MatchSide}
    (hrule : IsRule rule) (hpattern : rule.matchSide = .ok pattern)
    (hside : MatchSide.ofRule rule bindings = .ok side) {choice : Choice} {found : Match}
    (helements : found.elements = pattern.children) {state : State}
    (hmatched : Matched side.layout found state) :
    Scene.Fits ⟨side.layout, bindings, choice⟩ found state where
  toMatched := hmatched
  names := by
    obtain ⟨numbers, -, hlaid⟩ := Layout.laidOut_of_ofRule hpattern hside
    obtain ⟨-, -, hall, -⟩ := hrule
    obtain rfl := Except.ok.inj hpattern
    exact hlaid.cursors hall
  named := by
    intro name element hname
    obtain ⟨numbers, -, hlaid⟩ := Layout.laidOut_of_ofRule hpattern hside
    have hle : pattern.children.length ≤ found.input.length := by
      rw [← hlaid.length_eq]
      exact hmatched.enough
    rw [Match.named?, helements]
    exact hlaid.find?_named hname hle

/-- **The text of a replacement runs as its code**: it reads back, for what it is made from comes
from a pattern file. -/
theorem Scene.run_text {scene : Scene} {elements : List String} {replacement : Node} {body : Body}
    (hbody : scene.replacement replacement = .ok body) (hcursors : scene.layout.NamesCursors)
    (hstatements : ∀ statement ∈ replacement.children, IsStatement elements statement)
    (arith : Arith) (depth : Nat) (state : State) :
    ∃ total, scene.Compiles none 0 replacement.children body total ∧
      run arith (body.text depth) state = execAll arith body.toStmts state := by
  obtain ⟨total, hcompiles⟩ := Scene.exists_compiles hbody
  refine ⟨total, hcompiles, ?_⟩
  rw [run, Body.read_text (hcompiles.readable hcursors.isName hstatements)]
  rfl

/-- Before the first node, nothing has been built. -/
theorem Building.initial {layout : Layout} {found : Match} {state : State}
    (h : Matched layout found state) : Building state none 0 [] state where
  start := rfl
  locals _ _ := rfl
  fresh node _ := h.fresh node
  cells := ⟨rfl, rfl⟩

/-- Code that realizes a rewriting returns 0 if and only if the rewriting gives up. -/
theorem Realizes.returned_zero_iff {base : State} {found : Match} {consumed : Nat}
    {outcome : Option Outcome} {rewriting : Option Rewriting}
    (h : Realizes base found consumed outcome rewriting) :
    (∃ after, outcome = some (.returned 0 after)) ↔ rewriting = some .giveUp := by
  rcases rewriting with _ | _ | instrs
  · rw [show outcome = none from h]
    simp
  · obtain ⟨after, houtcome, -⟩ := h
    simp [houtcome]
  · obtain ⟨after, houtcome, -⟩ := h
    simp [houtcome]

/-- **The text of a replacement does what the replacement says.**  In any state in which the match
side has matched, it has the outcome that the rewriting calls for, and it returns 0 exactly where
the rewriting gives up.  The number of matched instructions stands in it, so it has to be one that C
can read. -/
theorem run_replacement_realizes (arith : Arith) {source : String}
    {tree rule pattern replacement : Node} (hparse : parse source = .ok tree)
    (hrule : rule ∈ tree.rules) (hpattern : rule.matchSide = .ok pattern)
    (hreplacement : rule.child? 1 = some replacement) {bindings : List Binding} {side : MatchSide}
    (hside : MatchSide.ofRule rule bindings = .ok side) (hcount : arith.Reads side.layout.consumed)
    {choice : Choice} {body : Body}
    (hbody : Scene.replacement ⟨side.layout, bindings, choice⟩ replacement = .ok body)
    (depth : Nat) {found : Match} (helements : found.elements = pattern.children) {state : State}
    (hmatched : Matched side.layout found state) :
    Realizes state found side.layout.consumed (run arith (body.text depth) state)
      (Scene.rewritingAll ⟨side.layout, bindings, choice⟩ arith found replacement.children) ∧
    ((∃ after, run arith (body.text depth) state = some (.returned 0 after)) ↔
      Scene.rewritingAll ⟨side.layout, bindings, choice⟩ arith found replacement.children
        = some .giveUp) := by
  have hisRule := isRule_of_mem_rules (isProgram_of_parse hparse) hrule
  have hfits : Scene.Fits ⟨side.layout, bindings, choice⟩ found state :=
    Scene.fits_of_matched hisRule hpattern hside helements hmatched
  obtain ⟨-, -, -, hstatements⟩ := hisRule
  obtain rfl := Option.some.inj hreplacement
  obtain ⟨total, hcompiles, hrun⟩ := Scene.run_text hbody hfits.names hstatements arith depth state
  have hrealizes := @Scene.Compiles.realizes _ arith _ _ hfits hcount _ _ _ _ _ hcompiles _ _
    (.initial hmatched)
  rw [Rewriting.andThen_build_nil, ← hrun] at hrealizes
  exact ⟨hrealizes, hrealizes.returned_zero_iff⟩

/-! ## A run

The rule copies a load, builds a `nop` if its argument is small, and a store behind both. -/

namespace Sample

/-- A rule that reuses, branches and computes. -/
def source : String :=
  "pattern p: x: \x7b iload, aload \x7d(a) dup --> " ++
    "\x7b x; if (a < 3) \x7b nop; \x7d istore(a + 1); \x7d"

/-- The match side of the rule. -/
def pattern : Node :=
  .branch .pattern
    [.mk .namedElement "x"
      [.branch .instructionSet [.leaf .instruction "iload", .leaf .instruction "aload"],
        .leaf .reference "a"],
      .branch .unnamedElement [.leaf .instruction "dup"]]

/-- The replacement of the rule. -/
def replacement : Node :=
  .branch .replacement
    [.leaf .reuse "x",
      .branch .ifChain
        [.branch .ifClause
          [.branch (.condition .lt) [.leaf .reference "a", .leaf .integer "3"],
            .leaf .construct "nop"]],
      .mk .construct "istore"
        [.branch (.arithmetic .add) [.leaf .reference "a", .leaf .integer "1"]]]

/-- What the rule is read as. -/
def rule : Node := .mk .rule "p" [pattern, replacement]

/-- The first element is bound to the set written in it. -/
def bindings : List Binding := [⟨"x", "inlined_1", 0⟩]

theorem parse_source : parse source = .ok (.branch .program [rule]) :=
  eq_ok_of_toOption (by decide +kernel)

/-- The list `iload 2; dup; ret`, with its first two instructions matched. -/
def state : State where
  store := [⟨⟨"iload", [2]⟩, some 1⟩, ⟨⟨"dup", []⟩, some 2⟩, ⟨⟨"ret", []⟩, none⟩]
  start := some 0
  locals name :=
    if name = "instr_x" then some (some (.node (some 0)))
    else if name = "instr_2" then some (some (.node (some 1)))
    else if name = "arg_a" then some (some (.int 2))
    else none

/-- The match in this list, with 2 captured. -/
def found : Match where
  elements := pattern.children
  input := [⟨"iload", [2]⟩, ⟨"dup", []⟩, ⟨"ret", []⟩]
  arguments _ := 2

/-- The layout of the match side. -/
def layout : Layout where
  elements := [⟨"x", true, "instr_x", some (.slot 0)⟩,
    ⟨"unnamed", false, "instr_2", some (.literal "dup")⟩]
  captures := ["a"]
  nonempty := by simp

/-- The state has the list matched, and the capture where the layout says. -/
theorem matched : Matched layout found state where
  holds := by
    have hlast := @Holds.cons state.store 2 ⟨⟨"ret", []⟩, none⟩ [] rfl .nil
    have hmore := @Holds.cons state.store 1 ⟨⟨"dup", []⟩, some 2⟩ _ rfl hlast
    exact @Holds.cons state.store 0 ⟨⟨"iload", [2]⟩, some 1⟩ _ rfl hmore
  enough := by decide
  cursors position element h := by
    match position with
    | 0 =>
      obtain rfl := Option.some.inj h
      exact ⟨_, rfl, rfl⟩
    | 1 =>
      obtain rfl := Option.some.inj h
      exact ⟨_, rfl, rfl⟩
    | position + 2 => simp [layout] at h
  arguments name hname := by
    obtain rfl := List.mem_singleton.1 hname
    rfl
  fresh node := by
    have hne : ∀ name : String, name.toList.head? ≠ some 's' → nodeLocal node ≠ name :=
      fun _ => nodeLocal_ne
    simp only [state]
    rw [if_neg (hne _ (by decide)), if_neg (hne _ (by decide)), if_neg (hne _ (by decide))]

theorem isSome_replacement :
    (Scene.replacement ⟨layout, bindings, ⟨[("x", "iload")]⟩⟩ replacement).toOption.isSome
      = true := by
  decide +kernel

end Sample

/-- The replacement of the sample puts three instructions in place of two. -/
theorem run_replacement_realizes_small :
    ∃ side body after, MatchSide.ofRule Sample.rule Sample.bindings = .ok side ∧
      Scene.replacement ⟨side.layout, Sample.bindings, ⟨[("x", "iload")]⟩⟩ Sample.replacement
        = .ok body ∧
      run .unbounded (body.text 1) Sample.state = some (.returned 1 after) ∧
      Holds after.store after.start
        [⟨"iload", [2]⟩, ⟨"nop", []⟩, ⟨"istore", [3]⟩, ⟨"ret", []⟩] := by
  obtain ⟨side, hside, hlayout⟩ : ∃ side, MatchSide.ofRule Sample.rule Sample.bindings = .ok side ∧
      side.layout = Sample.layout := ⟨_, rfl, rfl⟩
  obtain ⟨body, hbody⟩ : ∃ body, Scene.replacement
      ⟨side.layout, Sample.bindings, ⟨[("x", "iload")]⟩⟩ Sample.replacement = .ok body := by
    rw [hlayout]
    obtain ⟨body, hbody⟩ := Option.isSome_iff_exists.1 Sample.isSome_replacement
    exact ⟨body, eq_ok_of_toOption hbody⟩
  have hmatched : Matched side.layout Sample.found Sample.state := hlayout ▸ Sample.matched
  have hrewriting : Scene.rewritingAll ⟨side.layout, Sample.bindings, ⟨[("x", "iload")]⟩⟩ .unbounded
      Sample.found Sample.replacement.children
        = some (.build [⟨"iload", [2]⟩, ⟨"nop", []⟩, ⟨"istore", [3]⟩]) := by
    rw [hlayout]
    decide +kernel
  have hrealizes := (run_replacement_realizes .unbounded Sample.parse_source (by decide) rfl rfl
    hside (Arith.reads_unbounded _) hbody 1 rfl hmatched).1
  rw [hrewriting, hlayout] at hrealizes
  obtain ⟨after, hrun, -, hholds⟩ := hrealizes
  exact ⟨side, body, after, hside, hbody, hrun, hholds⟩

end Peephole

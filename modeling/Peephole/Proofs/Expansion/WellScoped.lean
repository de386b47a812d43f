import Peephole.Proofs.Expansion.Partition
import Peephole.Proofs.Layout.Scope
import Peephole.Proofs.Replacement.Scope

/-!
# Proofs/Expansion/WellScoped — the locals of a matcher are in order

A matcher is read as one C function: its match side, then its body, in the block behind its head.
The match side declares cursors and arguments, the body declares nodes and uses all three.  Names
that the rule chose, positions and generated numbers never meet, for `Fresh` keeps them apart
(`LaidOut.nodup_declares`), so every matcher of a pattern file is well scoped.
-/

namespace Peephole

open C

/-! ## The text of a matcher as a function -/

/-- An identifier of C is a word of the lexer. -/
theorem isWord_of_isCIdentifier {text : String} (h : isCIdentifier text = true) : IsWord text := by
  unfold isCIdentifier at h
  split at h
  case h_1 => simp at h
  case h_2 c cs hchars =>
    simp only [Bool.and_eq_true, Bool.or_eq_true, beq_iff_eq, List.all_eq_true] at h
    refine ⟨by simp [hchars], fun d hd => ?_⟩
    rw [hchars, List.mem_cons] at hd
    obtain rfl | hd := hd
    · obtain halpha | rfl := h.1
      · simp [isWordChar, Char.isAlphanum, halpha]
      · decide
    · exact h.2 d hd

/-- The head of a function, up to its block. -/
theorem lex_head {name : String} (h : IsWord name) (rest : List Char) :
    lex (("int " ++ name ++ "(CODE **c)\n\x7b\n").toList ++ rest)
      = prepend [.keyword .int, Token.ofWord name.toList, .punct .lparen, .keyword .code,
        .punct (.operator (.arithmetic .mul)), .punct (.operator (.arithmetic .mul)), .name "c",
        .punct .rparen, .punct .lbrace] (lex rest) := by
  have hstar : ∀ text, lex ('*' :: '*' :: text)
      = prepend [.punct (.operator (.arithmetic .mul))] (lex ('*' :: text)) := fun text =>
    lex_punct (by decide) (by decide) rfl
  have hc : ∀ text, lex ('*' :: 'c' :: ')' :: text)
      = prepend [.punct (.operator (.arithmetic .mul)), .name "c"] (lex (')' :: text)) :=
    fun text => (isName_fixed (by decide : "c" ∈ _)).lex_behind (by decide) (by decide) rfl
      (ends_cons.2 (by decide))
  have hname : ∀ text, lex (name.toList ++ '(' :: text)
      = prepend [Token.ofWord name.toList] (lex ('(' :: text)) := fun text =>
    h.spells _ (ends_cons.2 (by decide))
  simp [lex_int, lex_code, hname, hstar, hc]

/-- **The text of a matcher is a function over `c`**: its match side, then its body. -/
theorem Matcher.readDefinition_text {matcher : Matcher} (hname : isCIdentifier matcher.name = true)
    (hsteps : ∀ step ∈ matcher.side.steps, step.Readable matcher.instructions)
    (hbody : matcher.body.Readable) :
    readDefinition matcher.text = some ⟨"c",
      matcher.side.steps.map (MatchStep.toStmt matcher.instructions) ++ matcher.body.toStmts⟩ := by
  obtain ⟨tokens, hspells, hreads⟩ :=
    MatchStep.spells_append hsteps (Body.spells_text matcher.body 1 hbody)
  have hclose : lex ['\x7d', '\n', '\n'] = some [.punct .rbrace] := by
    simp [show lex [] = some [] by rw [lex]]
  have hblock := hspells ['\x7d', '\n', '\n']
  have htext : matcher.text.toList = ("int " ++ matcher.name ++ "(CODE **c)\n\x7b\n").toList ++
      ((matcher.side.template.instantiate matcher.instructions).toList ++
        (matcher.body.text 1).toList ++ ['\x7d', '\n', '\n']) := by
    simp [Matcher.text]
  rw [hclose] at hblock
  rw [readDefinition, htext, lex_head (isWord_of_isCIdentifier hname), MatchSide.template, hblock]
  have hread := hreads.block (tokens.length + 1 + 1) [] (by omega)
  simp [hread]

/-! ## Matchers -/

/-- A name that is free for an element is its cursor or a local of a capture. -/
theorem Layout.Fresh.eq_local {names : List String} {position : Nat} {taken : List String}
    {numbers : String → Option Nat} {name : String} (h : Fresh names position taken numbers name) :
    (∃ text, name = cursorLocal text) ∨ ∃ text, name = argumentLocal text := by
  rcases h with _ | _ | _ | _
  · exact .inl ⟨_, rfl⟩
  · exact .inl ⟨_, rfl⟩
  · exact .inr ⟨_, rfl⟩
  · exact .inr ⟨_, rfl⟩

theorem nodup_map_nodeLocal (count : Nat) : ((List.range' 1 count).map nodeLocal).Nodup :=
  List.Nodup.map (fun _ _ heq => nodeLocal_inj heq) List.nodup_range'

/-- **A match side and the code of a replacement, in one function, are well scoped.** -/
theorem wellScoped_of_compiles {rule pattern replacement : Node} (hrule : IsRule rule)
    (hpattern : rule.matchSide = .ok pattern) {bindings : List Binding} {side : MatchSide}
    (hside : MatchSide.ofRule rule bindings = .ok side) {choice : Choice} {body : Body}
    {total : Nat}
    (hbody : Scene.Compiles ⟨side.layout, bindings, choice⟩ none 0 replacement.children body total)
    (values : List String) :
    Definition.WellScoped ⟨"c", side.steps.map (MatchStep.toStmt values) ++ body.toStmts⟩ := by
  obtain ⟨numbers, hcaptures, hlaid⟩ := Layout.laidOut_of_ofRule hpattern hside
  obtain ⟨-, -, hall, -⟩ := hrule
  obtain rfl := Except.ok.inj hpattern
  have hdeclared : declared (side.steps.map (MatchStep.toStmt values) ++ body.toStmts)
      = side.steps.flatMap MatchStep.declares ++ (List.range' 1 total).map nodeLocal := by
    rw [declared_append, MatchStep.declared_map_toStmt, hbody.declared_toStmts]
    rfl
  have hfresh := hlaid.fresh_of_mem_declares hall MatchSide.mem_capturedNames
  refine ⟨?_, ?_, ?_⟩
  · dsimp only
    rw [hdeclared, List.nodup_append]
    refine ⟨hlaid.nodup_declares hall MatchSide.mem_capturedNames, nodup_map_nodeLocal total,
      fun first hfirst second hsecond heq => ?_⟩
    obtain ⟨node, -, rfl⟩ := List.mem_map.1 hsecond
    rw [heq] at hfirst
    exact Layout.not_fresh_nodeLocal node (hfresh _ hfirst)
  · rw [scoped_append, MatchStep.flatMap_introduced]
    refine ⟨hlaid.inScope (by simp) (by simp) (by simp) values,
      hbody.inScope ⟨by simp, by simp, fun element helement => ?_, fun name hname => ?_⟩
        (by simp [Scene.SeesLinked])⟩
    · exact List.mem_append_right _ (hlaid.cursor_mem_declares element helement)
    · have hnumber := (hcaptures name).1 (List.contains_iff_mem.1 hname)
      exact List.mem_append_right _
        ((hlaid.argumentLocal_mem_declares hnumber).resolve_left (by simp))
  · exact ⟨_, total, hdeclared, fun name hname => (hfresh name hname).eq_local⟩

/-- **Every matcher of a pattern file reads as a C function**: its match side with the chosen
instructions, then the code of its replacement. -/
theorem exists_readDefinition_of_mem {source : String} {tree rule : Node} {table : AliasTable}
    {matcher : Matcher} (hparse : parse source = .ok tree) (hrule : rule ∈ tree.rules)
    (htable : (AliasTable.build tree).result = .ok table)
    (hmatcher : matcher ∈ (Expansion.ofRule rule table).matchers) :
    ∃ pattern replacement : Node, ∃ bindings side choice body total, rule.matchSide = .ok pattern ∧
      MatchSide.ofRule rule bindings = .ok side ∧
      Scene.Compiles ⟨side.layout, bindings, choice⟩ none 0 replacement.children body total ∧
      readDefinition matcher.text
        = some ⟨"c", side.steps.map (MatchStep.toStmt choice.instructions) ++ body.toStmts⟩ := by
  have htree := isProgram_of_parse hparse
  obtain ⟨-, -, hall, hstatements⟩ := isRule_of_mem_rules htree hrule
  obtain ⟨plan, chosen, hplan, hchosen, hmatcher⟩ := Expansion.exists_chosen_of_mem hmatcher
  obtain ⟨aliases, hresolve, hsets, hside⟩ := Expansion.exists_of_plan hplan
  obtain ⟨pattern, hpattern⟩ := Binding.matchSide_of_resolve hresolve
  obtain ⟨numbers, -, hlaid⟩ := Layout.laidOut_of_ofRule hpattern hside
  have hwords := wordChars_of_mem_product
    (listsIdentifiers_of_resolve htree hrule hpattern htable hresolve) hsets hchosen
  rw [← Choice.instructions_ofBindings (length_of_mem_product hsets hchosen)] at hwords
  obtain ⟨replacement, body, hreplacement, hbody, hname, rfl⟩ :=
    Matcher.exists_of_ofChoice (Expansion.matcher_eq_ok_iff.1 hmatcher)
  obtain ⟨total, hcompiles⟩ := Scene.exists_compiles hbody
  obtain rfl := Except.ok.inj hpattern
  obtain rfl := Option.some.inj hreplacement
  have hreads := Matcher.readDefinition_text hname (hlaid.readable hall (by simp) hwords)
    (hcompiles.readable (Layout.NamesCursors.isName (hlaid.cursors hall)) hstatements)
  exact ⟨_, _, _, _, _, _, _, rfl, hside, hcompiles, hreads⟩

/-- **Every matcher of a pattern file is well scoped**, in the C that its text reads as; those
before a fault too. -/
theorem matcher_wellScoped {source : String} {tree rule : Node} {table : AliasTable}
    {matcher : Matcher} (hparse : parse source = .ok tree) (hrule : rule ∈ tree.rules)
    (htable : (AliasTable.build tree).result = .ok table)
    (hmatcher : matcher ∈ (Expansion.ofRule rule table).matchers) :
    ∃ definition, readDefinition matcher.text = some definition ∧ definition.WellScoped := by
  obtain ⟨pattern, replacement, bindings, side, choice, body, total, hpattern, hside, hcompiles,
    hreads⟩ := exists_readDefinition_of_mem hparse hrule htable hmatcher
  exact ⟨_, hreads, wellScoped_of_compiles (isRule_of_mem_rules (isProgram_of_parse hparse) hrule)
    hpattern hside hcompiles choice.instructions⟩

namespace Repeated

/-- The second capture of `a` cannot be `a_2`, and the store is built once per branch. -/
def source : String :=
  "pattern p: x: iload(a) ldc(a_2) iload(a) --> " ++
    "\x7b x; if (a < a_2) \x7b nop; \x7d else \x7b x; \x7d istore(a); \x7d"

/-- What the rule is read as. -/
def rule : Node :=
  .mk .rule "p"
    [.branch .pattern
        [.mk .namedElement "x" [.leaf .instruction "iload", .leaf .reference "a"],
          .branch .unnamedElement [.leaf .instruction "ldc", .leaf .reference "a_2"],
          .branch .unnamedElement [.leaf .instruction "iload", .leaf .reference "a"]],
      .branch .replacement
        [.leaf .reuse "x",
          .branch .ifChain
            [.branch .ifClause
              [.branch (.condition .lt) [.leaf .reference "a", .leaf .reference "a_2"],
                .mk .construct "nop" []],
              .branch .elseClause [.leaf .reuse "x"]],
          .mk .construct "istore" [.leaf .reference "a"]]]

theorem parse_source : parse source = .ok (.branch .program [rule]) :=
  eq_ok_of_toOption (by decide +kernel)

end Repeated

example : (Expansion.ofRule Repeated.rule .empty).matchers.map
    (fun matcher => matcher.side.steps.flatMap MatchStep.declares ++
      declared matcher.body.toStmts) =
      [["instr_x", "arg_a", "instr_2", "arg_a_2", "instr_3", "arg_a_3", "statement_1",
        "statement_2", "statement_3", "statement_4", "statement_5"]] := by
  decide +kernel

/-- The matcher of a rule that captures a name twice is well-scoped. -/
theorem matcher_wellScoped_repeated :
    ∃ matcher ∈ (Expansion.ofRule Repeated.rule .empty).matchers, ∃ definition,
      readDefinition matcher.text = some definition ∧ definition.WellScoped := by
  obtain ⟨matcher, hmatcher⟩ :=
    List.exists_mem_of_ne_nil (Expansion.ofRule Repeated.rule .empty).matchers
      (by rw [← List.isEmpty_eq_false_iff]; decide +kernel)
  exact ⟨matcher, hmatcher,
    matcher_wellScoped Repeated.parse_source List.mem_cons_self rfl hmatcher⟩

end Peephole

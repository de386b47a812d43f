import Peephole.Proofs.Grammar.StatementSpelling

/-!
# Proofs/Grammar/Completeness — the trees of the language are the trees of texts

`IsProgram` says what reading can make, and every such tree is read from its own spelling
(`IsProgram.parse_spelling`), so the two describe the same trees.
-/

namespace Peephole

/-! ## Instructions and declarations -/

theorem IsInstruction.solid {node : Node} (h : IsInstruction node) : Solid node.spelling := by
  obtain ⟨h⟩ := h
  exact h.solid

theorem IsInstruction.reads {node : Node} (h : IsInstruction node) :
    Reads Reader.instruction node.spelling node (NoMore isWordChar) := by
  obtain ⟨h⟩ := h
  intro rest hrest
  exact Reader.read_then (Reader.read_identifier h hrest) rfl

theorem spelling_instructionSet (instructions : List Node) :
    (Node.branch .instructionSet instructions).spelling
      = '\x7b' :: ([','].intercalate (instructions.map Node.spelling) ++ ['\x7d']) := by
  rw [← Node.spellings_eq]
  rfl

theorem IsInstructionSet.start {node : Node} (h : IsInstructionSet node) :
    ∃ text, node.spelling = '\x7b' :: text := by
  obtain ⟨_, _⟩ := h
  exact ⟨_, rfl⟩

theorem IsInstructionSet.solid {node : Node} (h : IsInstructionSet node) : Solid node.spelling := by
  obtain ⟨text, htext⟩ := h.start
  rw [htext]
  exact solid_cons rfl (by decide) text

/-- A set reads back. -/
theorem IsInstructionSet.reads {node : Node} (h : IsInstructionSet node) (rest : List Char) :
    Reader.instructionSet.read (node.spelling ++ rest) = some (node, rest) := by
  obtain ⟨hne, all⟩ := h
  rename_i instructions
  have hend : NoMore isWordChar ('\x7d' :: rest) := noMore_cons rfl rest
  have hsettled : Settled ('\x7d' :: rest) := settled_cons rfl (by decide) rest
  have hlist := Reader.read_commaSeparated Node.spelling hne
    (fun node hnode => (all node hnode).solid) (fun node hnode => (all node hnode).reads)
    (noMore_cons rfl) hend (by decide) hsettled
  have hstart : Settled
      ([','].intercalate (instructions.map Node.spelling) ++ '\x7d' :: rest) := by
    obtain ⟨first, more, rfl⟩ := List.exists_cons_of_ne_nil hne
    rw [List.map_cons, intercalate_cons, List.append_assoc]
    exact (all first List.mem_cons_self).solid _
  rw [spelling_instructionSet, List.cons_append, List.append_assoc, List.singleton_append,
    Reader.instructionSet, Reader.read_named]
  refine Reader.read_then (Reader.read_char rfl _) ?_
  refine Reader.read_then (Reader.read_gap_of_settled hstart) (Reader.read_then hlist ?_)
  refine Reader.read_then (Reader.read_gap_of_settled hsettled) ?_
  exact Reader.read_then (Reader.read_char rfl rest) rfl

/-- A declaration is spelled with a blank between the word `set` and the name. -/
theorem spelling_declaration (name : String) (set : Node) :
    (Node.branch .declaration [.leaf .identifier name, set]).spelling
      = "set".toList ++ ' ' :: (name.toList ++ '=' :: (set.spelling ++ [';'])) := by
  have hspelling : (Node.branch .declaration [.leaf .identifier name, set]).spelling
      = "set".toList ++ ' ' :: (['='].intercalate [name.toList, set.spelling] ++ [';']) := rfl
  rw [hspelling, intercalate_cons]
  simp

theorem IsDeclaration.solid {node : Node} (h : IsDeclaration node) : Solid node.spelling := by
  obtain ⟨_, _⟩ := h
  exact solid_cons rfl (by decide) _

/-- A declaration reads back. -/
theorem IsDeclaration.reads {node : Node} (h : IsDeclaration node) (rest : List Char) :
    Reader.declaration.read (node.spelling ++ rest) = some (node, rest) := by
  obtain ⟨h, hset⟩ := h
  rw [spelling_declaration, Reader.declaration, Reader.read_named, List.append_assoc,
    List.cons_append, List.append_assoc, List.cons_append, List.append_assoc, List.singleton_append]
  refine Reader.read_then (Reader.read_text "set" _) ?_
  refine Reader.read_then (Reader.read_gap_blank (h.solid _)) ?_
  refine Reader.read_then (Reader.read_identifier h (noMore_cons rfl _)) ?_
  refine Reader.read_then (Reader.read_gap_of_settled (settled_cons rfl (by decide) _)) ?_
  refine Reader.read_then (Reader.read_char rfl _) ?_
  refine Reader.read_then (Reader.read_gap_of_settled (hset.solid _)) ?_
  refine Reader.read_then (hset.reads _) ?_
  refine Reader.read_then (Reader.read_gap_of_settled (settled_cons rfl (by decide) _)) ?_
  exact Reader.read_then (Reader.read_char rfl rest) rfl

/-! ## Match sides -/

theorem IsCapture.solid {node : Node} (h : IsCapture node) : Solid node.spelling := by
  obtain ⟨h⟩ := h
  exact h.solid

theorem IsCapture.reads {node : Node} (h : IsCapture node) :
    Reads Reader.capture node.spelling node (NoMore isWordChar) := by
  obtain ⟨h⟩ := h
  intro rest hrest
  exact Reader.read_then (Reader.read_identifier h hrest) rfl

theorem Reader.read_wildcard {rest : List Char} (h : NoMore isWordChar rest) :
    Reader.wildcard.read ('_' :: rest) = some ((), rest) := by
  obtain ⟨hrun, -⟩ := run_eq_iff.2 ⟨(List.nil_append rest).symm, by simp, h⟩
  rw [Reader.wildcard, Reader.read_token, scanWildcard_eq, dropStart, if_pos rfl, dropStart,
    Option.bind_some, if_pos hrun]

theorem Reader.wildcard_refused {c : Char} (h : '_' ≠ c) (rest : List Char) :
    Reader.wildcard.read (c :: rest) = none := by
  rw [Reader.wildcard, Reader.read_token, scanWildcard_eq, dropStart, if_neg h, Option.bind_none]

/-- What an element asks for does not start like a wildcard. -/
theorem start_of_asking {body : Node} (h : IsInstructionSet body ∨ IsInstruction body) :
    ∃ c text, body.spelling = c :: text ∧ '_' ≠ c := by
  rcases h with h | h
  · obtain ⟨text, htext⟩ := h.start
    exact ⟨_, text, htext, by decide⟩
  · obtain ⟨h⟩ := h
    obtain ⟨c, text, htext, hc⟩ := h.start
    refine ⟨c, text, htext, ?_⟩
    rintro rfl
    exact absurd hc (by decide)

/-- An element that asks for something is spelled with its captures in parentheses. -/
theorem elementSpelling_asking {body : Node} (h : IsInstructionSet body ∨ IsInstruction body)
    (captures : List Node) :
    Node.elementSpelling ((body :: captures).map Node.spelling)
      = body.spelling ++ inParentheses (captures.map Node.spelling) := by
  obtain ⟨c, text, htext, hc⟩ := start_of_asking h
  rw [List.map_cons, Node.elementSpelling, if_neg]
  rw [htext]
  exact fun heq => hc (List.cons.inj heq).1.symm

/-- What an element asks for reads back before its captures. -/
theorem read_asking {body : Node} (h : IsInstructionSet body ∨ IsInstruction body)
    (captures : List (List Char)) (rest : List Char) :
    (Reader.instructionSet <|> Reader.instruction).read
        (body.spelling ++ (inParentheses captures ++ rest))
      = some (body, inParentheses captures ++ rest) := by
  rcases h with h | h
  · exact Reader.read_orElse_left (h.reads _)
  · have hread := h.reads (inParentheses captures ++ rest) (noMore_cons rfl _)
    obtain ⟨h⟩ := h
    refine (Reader.read_orElse_right ?_).trans hread
    obtain ⟨c, text, htext, hc⟩ := h.start
    rw [show (Node.leaf .instruction _).spelling = c :: text from htext]
    refine Reader.read_stop (Reader.read_text_refused rfl ?_ _)
    rintro rfl
    exact absurd hc (by decide)

/-- The text of an element starts in no gap. -/
theorem IsElementBody.solid {body : List Node} (h : IsElementBody body) :
    Solid (Node.elementSpelling (body.map Node.spelling)) := by
  rcases h with _ | ⟨h, _⟩
  · exact solid_cons rfl (by decide) _
  · rw [elementSpelling_asking h]
    refine Solid.append ?_ _
    rcases h with h | h
    · exact h.solid
    · exact h.solid

/-- The body of an element reads back, where its word ends. -/
theorem IsElementBody.reads {body : List Node} (h : IsElementBody body) :
    Reads Reader.elementBody (Node.elementSpelling (body.map Node.spelling)) body
      (NoMore isWordChar) := by
  intro rest hrest
  rcases h with _ | @⟨body, captures, h, all⟩
  · exact Reader.read_orElse_left (Reader.read_then (Reader.read_wildcard hrest) rfl)
  · have hcaptures := Reader.read_parenthesized Node.spelling
      (fun node hnode => (all node hnode).solid) (fun node hnode => (all node hnode).reads)
      (noMore_cons rfl) (noMore_cons rfl) (fun _ => rfl) rest
    rw [elementSpelling_asking h, List.append_assoc]
    refine (Reader.read_orElse_right ?_).trans ?_
    · obtain ⟨c, text, htext, hc⟩ := start_of_asking h
      rw [htext]
      exact Reader.read_stop (Reader.wildcard_refused hc _)
    · refine Reader.read_then (read_asking h _ rest) ?_
      refine Reader.read_then (Reader.read_gap_of_settled (settled_cons rfl (by decide) _)) ?_
      exact Reader.read_then (Reader.read_optional_some hcaptures) rfl

/-- What an element asks for is not taken for its name. -/
theorem IsElementBody.namedElement_refused {body : List Node} (h : IsElementBody body)
    (rest : List Char) :
    Reader.namedElement.read (Node.elementSpelling (body.map Node.spelling) ++ rest) = none := by
  rcases h with _ | @⟨body, captures, h, all⟩
  · rfl
  rw [elementSpelling_asking h, List.append_assoc]
  rcases h with h | h
  · obtain ⟨text, htext⟩ := h.start
    rw [htext]
    rfl
  · obtain ⟨h⟩ := h
    rw [Reader.namedElement, Reader.read_named]
    refine Reader.read_then (Reader.read_identifier h (noMore_cons rfl _)) ?_
    refine Reader.read_then (Reader.read_gap_of_settled (settled_cons rfl (by decide) _)) ?_
    exact Reader.read_stop (Reader.read_text_refused rfl (by decide) _)

theorem spelling_namedElement (name : String) (body : List Node) :
    (Node.mk .namedElement name body).spelling
      = name.toList ++ ':' :: Node.elementSpelling (body.map Node.spelling) := by
  rw [← Node.spellings_eq]
  rfl

theorem spelling_unnamedElement (body : List Node) :
    (Node.branch .unnamedElement body).spelling
      = Node.elementSpelling (body.map Node.spelling) := by
  rw [← Node.spellings_eq]
  rfl

/-- An element starts in no gap. -/
theorem IsElement.solid {node : Node} (h : IsElement node) : Solid node.spelling := by
  rcases h with ⟨h, _⟩ | ⟨hbody⟩
  · rw [spelling_namedElement]
    exact h.solid.append _
  · rw [spelling_unnamedElement]
    exact hbody.solid

/-- An element reads back, with or without a name. -/
theorem IsElement.reads {node : Node} (h : IsElement node) :
    Reads (Reader.namedElement <|> Reader.unnamedElement) node.spelling node
      (NoMore isWordChar) := by
  intro rest hrest
  rcases h with ⟨h, hbody⟩ | ⟨hbody⟩
  · rw [spelling_namedElement, List.append_assoc]
    refine Reader.read_orElse_left ?_
    rw [Reader.namedElement, Reader.read_named]
    refine Reader.read_then (Reader.read_identifier h (noMore_cons rfl _)) ?_
    refine Reader.read_then (Reader.read_gap_of_settled (settled_cons rfl (by decide) _)) ?_
    refine Reader.read_then (Reader.read_char rfl _) ?_
    refine Reader.read_then (Reader.read_gap_of_settled (hbody.solid rest)) ?_
    exact Reader.read_then (hbody.reads rest hrest) rfl
  · rw [spelling_unnamedElement]
    refine (Reader.read_orElse_right (hbody.namedElement_refused rest)).trans ?_
    exact Reader.read_then (hbody.reads rest hrest) rfl

/-- **The elements of a match side**, up to the arrow. -/
theorem read_matchSide {elements : List Node} (hne : elements ≠ [])
    (all : ∀ element ∈ elements, IsElement element) (rest : List Char) :
    Reader.matchSide.read ([' '].intercalate (elements.map Node.spelling) ++ ("-->".toList ++ rest))
      = some (elements, "-->".toList ++ rest) := by
  obtain ⟨first, more, rfl⟩ := List.exists_cons_of_ne_nil hne
  obtain ⟨hfirst, hmore⟩ := List.forall_mem_cons.1 all
  have hend : NoMore isWordChar ("-->".toList ++ rest) := noMore_cons rfl _
  have hblank : IsGap [' '] := .blank rfl .nil
  have hseries := Reader.read_series [' '] Node.spelling hblank
    (fun node hnode => (hmore node hnode).solid) (fun node hnode => (hmore node hnode).reads)
    (fun _ _ _ => noMore_cons rfl _) hend (settled_cons rfl (by decide) _) rfl
  rw [List.map_cons, intercalate_cons, List.flatMap_map, List.append_assoc, Reader.matchSide,
    Reader.read_named]
  refine Reader.read_then (hfirst.reads _ ?_) ?_
  · exact follows_flatMap [' '] Node.spelling (fun _ _ _ => noMore_cons rfl _) hend
  · exact Reader.read_then (Reader.read_gap _) (Reader.read_then hseries rfl)

/-! ## Rules and programs -/

/-- A rule is spelled with blanks behind `pattern` and between its elements. -/
theorem spelling_rule (name : String) (elements body : List Node) :
    (Node.mk .rule name [.branch .pattern elements, .branch .replacement body]).spelling
      = "pattern".toList ++ ' ' :: (name.toList ++ ':' ::
        ([' '].intercalate (elements.map Node.spelling)
          ++ ("-->".toList ++ inBraces (body.map Node.spelling)))) := by
  have hspelling :
      (Node.mk .rule name [.branch .pattern elements, .branch .replacement body]).spelling
        = "pattern".toList ++ ' ' :: (name.toList ++ ':' :: "-->".toList.intercalate
          [[' '].intercalate (Node.spellings elements), inBraces (Node.spellings body)]) := rfl
  rw [hspelling, intercalate_cons, Node.spellings_eq, Node.spellings_eq]
  simp only [List.flatMap_cons, List.flatMap_nil, List.append_nil]

theorem IsRule.start {node : Node} (h : IsRule node) : ∃ text, node.spelling = 'p' :: text := by
  obtain ⟨_, _, _, _⟩ := h
  exact ⟨_, rfl⟩

theorem IsRule.solid {node : Node} (h : IsRule node) : Solid node.spelling := by
  obtain ⟨text, htext⟩ := h.start
  rw [htext]
  exact solid_cons rfl (by decide) text

theorem SpellsStatement.statement {elements : List String} {text : List Char} {node : Node}
    (h : SpellsStatement elements text node) :
    Reads (Reader.statement elements) text node Continues :=
  fun rest hrest =>
    h.reads ((text ++ rest).length + 1) (by rw [List.length_append]; omega) rest hrest

theorem statement_refused (elements : List String) (rest : List Char) :
    (Reader.statement elements).read ('\x7d' :: rest) = none := by
  rw [Reader.statement, Reader.read_nested]
  exact SpellsStatement.statementWithin_refused _ rest

/-- A rule reads back. -/
theorem IsRule.reads {node : Node} (h : IsRule node) (rest : List Char) :
    Reader.rule.read (node.spelling ++ rest) = some (node, rest) := by
  obtain ⟨h, hne, all, hbody⟩ := h
  have hbody := fun statement hstatement => (hbody statement hstatement).spells
  have hblock := SpellsStatement.read_block hbody
    (fun statement hstatement => (hbody statement hstatement).statement) (statement_refused _)
    Symbol.replacement rest
  rw [spelling_rule, Reader.rule, Reader.read_named, List.append_assoc, List.cons_append,
    List.append_assoc, List.cons_append, List.append_assoc, List.append_assoc]
  refine Reader.read_then (Reader.read_text "pattern" _) ?_
  refine Reader.read_then (Reader.read_gap_blank (h.solid _)) ?_
  refine Reader.read_then (Reader.read_identifier h (noMore_cons rfl _)) ?_
  refine Reader.read_then (Reader.read_gap_of_settled (settled_cons rfl (by decide) _)) ?_
  refine Reader.read_then (Reader.read_char rfl _) ?_
  refine Reader.read_then (Reader.read_gap_of_settled ?_) ?_
  · obtain ⟨first, more, rfl⟩ := List.exists_cons_of_ne_nil hne
    rw [List.map_cons, intercalate_cons, List.append_assoc]
    exact (all first List.mem_cons_self).solid _
  refine Reader.read_then (read_matchSide hne all _) ?_
  refine Reader.read_then (Reader.read_gap_of_settled (settled_cons rfl (by decide) _)) ?_
  refine Reader.read_then (Reader.read_text "-->" _) ?_
  refine Reader.read_then (Reader.read_gap_of_settled (settled_cons rfl (by decide) _)) ?_
  exact Reader.read_then hblock rfl

/-- Declarations end where the rules start. -/
theorem declaration_refused {rules : List Node} (h : ∀ rule ∈ rules, IsRule rule) :
    Settled (rules.flatMap Node.spelling) ∧
      Reader.declaration.read (rules.flatMap Node.spelling) = none := by
  rcases rules with _ | ⟨rule, rules⟩
  · exact ⟨settled_nil, rfl⟩
  · obtain ⟨text, htext⟩ := (h rule List.mem_cons_self).start
    rw [List.flatMap_cons, htext, List.cons_append]
    refine ⟨settled_cons rfl (by decide) _, ?_⟩
    rw [Reader.declaration, Reader.read_named]
    exact Reader.read_stop (Reader.read_text_refused rfl (by decide) _)

/-- A program is spelled without anything between its parts. -/
theorem spelling_program (declarations rules : List Node) :
    (Node.branch .program (declarations ++ rules)).spelling
      = declarations.flatMap Node.spelling ++ rules.flatMap Node.spelling := by
  have hspelling : (Node.branch .program (declarations ++ rules)).spelling
      = (Node.spellings (declarations ++ rules)).flatten := rfl
  rw [hspelling, Node.spellings_eq, ← List.flatMap_def, List.flatMap_append]

/-- **A tree of the grammar reads back from its spelling.** -/
theorem IsProgram.read_spelling {tree : Node} (h : IsProgram tree) :
    Reader.program.read tree.spelling = some (tree, []) := by
  rcases h with @⟨declarations, rules, hdeclarations, hrules⟩
  obtain ⟨hsettled, hrefused⟩ := declaration_refused hrules
  have hitem : ∀ node ∈ declarations, Reads Reader.declaration node.spelling node fun _ => True :=
    fun node hnode rest _ => (hdeclarations node hnode).reads rest
  have hitem' : ∀ node ∈ rules, Reads Reader.rule node.spelling node fun _ => True :=
    fun node hnode rest _ => (hrules node hnode).reads rest
  have hfirst := Reader.read_series [] Node.spelling .nil
    (fun node hnode => (hdeclarations node hnode).solid) hitem (fun _ _ _ => trivial) trivial
    hsettled hrefused
  have hsecond := Reader.read_series [] Node.spelling .nil
    (fun node hnode => (hrules node hnode).solid) hitem' (fun _ _ _ => trivial) trivial settled_nil
    rfl
  rw [List.append_nil] at hsecond
  rw [spelling_program, Reader.program, Reader.read_named]
  refine Reader.read_then (Reader.read_gap _) (Reader.read_then hfirst ?_)
  refine Reader.read_then (Reader.read_gap _) (Reader.read_then hsecond ?_)
  exact Reader.read_then (Reader.read_gap_of_settled settled_nil) rfl

/-- **A tree of the language is the tree of its spelling.** -/
theorem IsProgram.parse_spelling {tree : Node} (h : IsProgram tree) :
    parse (String.ofList tree.spelling) = .ok tree := by
  have hread : Reader.program.read (String.ofList tree.spelling).toList = some (tree, []) := by
    rw [String.toList_ofList]
    exact h.read_spelling
  exact parse_of_taken hread

example : String.ofList (Node.branch .program
    [.mk .rule "p"
      [.branch .pattern [.branch .unnamedElement [.leaf .wildcard ""],
          .mk .namedElement "x" [.leaf .instruction "ldc", .leaf .reference "k"]],
        .branch .replacement [.branch .ifChain
          [.branch .ifClause [.branch (.condition .lt) [.leaf .reference "k", .leaf .integer "-1"],
              .leaf .reuse "x"],
            .branch .elseClause []]]]]).spelling
    = "pattern p:_ x:ldc(k)-->\x7bif((k)<(-1))\x7bx;\x7delse\x7b\x7d\x7d" := by decide +kernel

/-- **The trees of the language are the trees that texts have.** -/
theorem isProgram_iff_exists_parse (tree : Node) :
    IsProgram tree ↔ ∃ source, parse source = .ok tree := by
  constructor
  · intro h
    exact ⟨_, h.parse_spelling⟩
  · rintro ⟨source, h⟩
    exact isProgram_of_parse h

end Peephole

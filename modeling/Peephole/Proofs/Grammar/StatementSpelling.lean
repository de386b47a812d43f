import Peephole.Proofs.Grammar.Spelling

/-!
# Proofs/Grammar/StatementSpelling — reading statements back from their spelling

A statement ends with its last character, but a chain of conditions looks for an `else` behind it.
What follows a statement must therefore not look like one (`NoElse`), and no statement does: a name
that starts with `else` goes on where an `else` would end, and `elseif (…)` lacks the block of a
further condition (`ifClause_refused`).
-/

namespace Peephole

/-- No `else` of a chain stands at the front of the text. -/
def NoElse (text : List Char) : Prop :=
  ∀ inner,
    (do Reader.text "else"; Reader.gap; Reader.ifClause inner : Reader Node).read text = none ∧
      (Reader.elseClause inner).read text = none

/-- What may follow a statement: anything but a gap, or an `else` that an `if` would take. -/
structure Continues (text : List Char) : Prop where
  settled : Settled text
  noElse : NoElse text

theorem noElse_cons {c : Char} (h : 'e' ≠ c) (text : List Char) : NoElse (c :: text) := fun _ =>
  ⟨Reader.read_stop (Reader.read_text_refused rfl h text),
    Reader.read_stop (Reader.read_text_refused rfl h text)⟩

theorem continues_rbrace (rest : List Char) : Continues ('\x7d' :: rest) :=
  ⟨settled_cons rfl (by decide) rest, noElse_cons (by decide) rest⟩

/-- The text is a statement with this tree. -/
structure SpellsStatement (elements : List String) (text : List Char) (node : Node) : Prop where
  solid : Solid text
  noElse : ∀ rest, NoElse (text ++ rest)
  reads : ∀ depth, text.length < depth →
    Reads (Reader.statementWithin elements depth) text node Continues

/-- The reader takes the clause, behind a word that is not part of its spelling. -/
structure SpellsClause (elements : List String) (reader : Reader Node → Reader Node)
    (word : List Char) (clause : Node) : Prop where
  solid : Solid clause.spelling
  reads : ∀ depth, clause.spelling.length ≤ depth → ∀ rest,
    (reader (Reader.statementWithin elements depth)).read (word ++ (clause.spelling ++ rest))
      = some (clause, rest)

namespace SpellsStatement

variable {elements : List String}

/-- A statement may follow where a branch ends: it does not start with `else`. -/
theorem continues {text : List Char} {node : Node} (h : SpellsStatement elements text node)
    (rest : List Char) : Continues (text ++ rest) := ⟨h.solid rest, h.noElse rest⟩

theorem statementWithin_refused (depth : Nat) (rest : List Char) :
    (Reader.statementWithin elements depth).read ('\x7d' :: rest) = none := by
  cases depth <;> rfl

theorem statements_refused {c : Char} (h : '\x7b' ≠ c) (symbol : Symbol) (item : Reader Node)
    (rest : List Char) : (Reader.statements symbol item).read (c :: rest) = none :=
  Reader.read_stop (Reader.read_text_refused rfl h rest)

/-- **A block of statements.** -/
theorem read_block {item : Reader Node} {body : List Node}
    (hbody : ∀ node ∈ body, SpellsStatement elements node.spelling node)
    (hitem : ∀ node ∈ body, Reads item node.spelling node Continues)
    (hempty : ∀ rest, item.read ('\x7d' :: rest) = none) (symbol : Symbol) (rest : List Char) :
    (Reader.statements symbol item).read (inBraces (body.map Node.spelling) ++ rest)
      = some (body, rest) :=
  Reader.read_braced Node.spelling (fun node hnode => (hbody node hnode).solid) hitem
    (fun node hnode => (hbody node hnode).continues) continues_rbrace hempty rest

/-! ### Instructions -/

theorem noMore_argumentList (texts : List (List Char)) (rest : List Char) :
    NoMore isWordChar (Node.argumentList texts ++ rest) := by
  cases texts <;> exact noMore_cons rfl _

theorem settled_argumentList (texts : List (List Char)) (rest : List Char) :
    Settled (Node.argumentList texts ++ rest) := by
  cases texts <;> exact settled_cons rfl (by decide) _

/-- A punctuation mark is refused where a word starts. -/
theorem refused_of_isWordChar {expected : String} {d : Char} {more : List Char}
    (hexpected : expected.toList = d :: more) (hd : isWordChar d = false) (c : Char)
    (rest : List Char) (hc : isWordChar c = true) :
    (Reader.text expected).read (c :: rest) = none := by
  refine Reader.read_text_refused hexpected ?_ rest
  rintro rfl
  rw [hc] at hd
  cases hd

/-- An instruction statement reads back, as a reuse or a construction. -/
theorem read_instructionStatement {name : String} (h : IsIdentifier name) {arguments : List Node}
    (hall : ∀ argument ∈ arguments, IsExpression argument) (rest : List Char) :
    (Reader.instructionStatement elements).read
        (name.toList ++ (Node.argumentList (arguments.map Node.spelling) ++ rest))
      = some (.simpleStatement elements name arguments, rest) := by
  have hsemicolon : Settled (';' :: rest) := settled_cons rfl (by decide) rest
  rw [Reader.instructionStatement, Reader.read_named]
  refine Reader.read_then (Reader.read_identifier h (noMore_argumentList _ rest)) ?_
  refine Reader.read_then (Reader.read_gap_of_settled (settled_argumentList _ rest)) ?_
  rcases arguments with _ | ⟨argument, arguments⟩
  · have hnone : (Reader.parenthesized Reader.expression).read (';' :: rest) = none :=
      Reader.read_stop (Reader.read_text_refused rfl (by decide) rest)
    refine Reader.read_then (Reader.read_optional_none hnone) ?_
    refine Reader.read_then (Reader.read_gap_of_settled hsemicolon) ?_
    exact Reader.read_then (Reader.read_char rfl rest) rfl
  · have htuple := Reader.read_parenthesized Node.spelling
      (fun node hnode => (hall node hnode).spells.solid)
      (fun node hnode => (hall node hnode).spells.expression) closes_comma closes_rparen
      (fun _ => rfl) (';' :: rest)
    rw [List.map_cons, Node.argumentList, List.append_assoc, List.singleton_append, ← List.map_cons]
    · refine Reader.read_then (Reader.read_optional_some htuple) ?_
      refine Reader.read_then (Reader.read_gap_of_settled hsemicolon) ?_
      exact Reader.read_then (Reader.read_char rfl rest) rfl
    · simp

/-- The arguments of an instruction are no condition: a semicolon follows them, and no block. -/
theorem ifClause_refused {arguments : List Node}
    (hall : ∀ argument ∈ arguments, IsExpression argument) (inner : Reader Node)
    (rest : List Char) :
    (Reader.ifClause inner).read
      ("if".toList ++ (Node.argumentList (arguments.map Node.spelling) ++ rest)) = none := by
  rw [Reader.ifClause, Reader.read_named]
  refine Reader.read_then (Reader.read_text "if" _) ?_
  refine Reader.read_then (Reader.read_gap_of_settled (settled_argumentList _ rest)) ?_
  rcases arguments with _ | ⟨first, arguments⟩
  · exact Reader.read_stop (Reader.read_text_refused rfl (by decide) rest)
  have hfirst := (hall first List.mem_cons_self).spells
  rcases arguments with _ | ⟨second, arguments⟩
  · have htext : Node.argumentList ([first].map Node.spelling) ++ rest
        = '(' :: (first.spelling ++ ')' :: ';' :: rest) := by
      simp [Node.argumentList, inParentheses]
    rw [htext]
    refine Reader.read_then (Reader.read_char rfl _) ?_
    refine Reader.read_then (Reader.read_gap_of_settled (hfirst.solid _)) ?_
    refine Reader.read_then (hfirst.expression _ (closes_rparen _)) ?_
    refine Reader.read_then (Reader.read_gap_of_settled (closes_rparen _).settled) ?_
    refine Reader.read_then (Reader.read_char rfl _) ?_
    refine Reader.read_then (Reader.read_gap_of_settled (settled_cons rfl (by decide) rest)) ?_
    exact Reader.read_stop (statements_refused (by decide) _ inner rest)
  · have htext : Node.argumentList ((first :: second :: arguments).map Node.spelling) ++ rest
        = '(' :: (first.spelling ++ ',' :: (second.spelling
          ++ (arguments.flatMap (',' :: ·.spelling) ++ ')' :: ';' :: rest))) := by
      simp [Node.argumentList, inParentheses, intercalate_cons, List.flatMap_map]
    rw [htext]
    refine Reader.read_then (Reader.read_char rfl _) ?_
    refine Reader.read_then (Reader.read_gap_of_settled (hfirst.solid _)) ?_
    refine Reader.read_then (hfirst.expression _ (closes_comma _)) ?_
    refine Reader.read_then (Reader.read_gap_of_settled (closes_comma _).settled) ?_
    exact Reader.read_stop (Reader.read_text_refused rfl (by decide) _)

/-- A name is no `else`, not even `elseif` with what it is given in parentheses. -/
theorem noElse_instruction {name : String} (h : IsIdentifier name) {arguments : List Node}
    (hall : ∀ argument ∈ arguments, IsExpression argument) (rest : List Char) :
    NoElse (name.toList ++ (Node.argumentList (arguments.map Node.spelling) ++ rest)) := by
  intro inner
  have hend := noMore_argumentList (arguments.map Node.spelling) rest
  constructor
  · cases helse : dropStart "else".toList
        (name.toList ++ (Node.argumentList (arguments.map Node.spelling) ++ rest)) with
    | none => exact Reader.read_stop (congrArg (Option.map ((), ·)) helse)
    | some remaining =>
      obtain ⟨c, more, hname, rfl, hc⟩ := h.exists_of_dropStart (by decide) hend helse
      refine Reader.read_then (congrArg (Option.map ((), ·)) helse) ?_
      refine Reader.read_then (Reader.read_gap_of_settled (settled_of_isWordChar hc _)) ?_
      cases hif : dropStart "if".toList
          (c :: more ++ (Node.argumentList (arguments.map Node.spelling) ++ rest)) with
      | none => exact Reader.read_stop (congrArg (Option.map ((), ·)) hif)
      | some remaining =>
        obtain ⟨last, hlast, rfl⟩ :=
          exists_of_dropStart_word (isWordChar_of_reserved (by decide)) hend hif
        rcases last with _ | ⟨d, last⟩
        · rw [hlast, List.append_nil]
          exact ifClause_refused hall inner rest
        · have hd : isWordChar d = true := h.chars d (by simp [hname, hlast])
          refine Reader.read_then (congrArg (Option.map ((), ·)) hif) ?_
          refine Reader.read_then (Reader.read_gap_of_settled (settled_of_isWordChar hd _)) ?_
          exact Reader.read_stop (refused_of_isWordChar rfl rfl d _ hd)
  · refine h.refused (by decide : "else" ∈ reservedWords) hend fun c more hc => ?_
    refine Reader.read_stop (statements_refused ?_ _ inner more)
    rintro rfl
    cases hc

/-- The text of an instruction statement is that of a statement. -/
theorem instruction {name : String} (h : IsIdentifier name) {arguments : List Node}
    (hall : ∀ argument ∈ arguments, IsExpression argument) :
    SpellsStatement elements (name.toList ++ Node.argumentList (arguments.map Node.spelling))
      (.simpleStatement elements name arguments) where
  solid := h.solid.append _
  noElse rest := by
    rw [List.append_assoc]
    exact noElse_instruction h hall rest
  reads depth hdepth rest hrest := by
    obtain ⟨depth, rfl⟩ : ∃ n, depth = n + 1 := ⟨depth - 1, by omega⟩
    have hend := noMore_argumentList (arguments.map Node.spelling) rest
    have hparen : ∀ {α : Type} {next : Reader α} (c : Char) (more : List Char),
        isWordChar c = true → (do Reader.text "("; next : Reader α).read (c :: more) = none :=
      fun c more hc => Reader.read_stop (refused_of_isWordChar rfl rfl c more hc)
    rw [List.append_assoc]
    refine (Reader.read_orElse_right ?_).trans ((Reader.read_orElse_right ?_).trans ?_)
    · exact h.refused (by decide : "switch" ∈ reservedWords) hend hparen
    · exact Reader.read_stop (h.refused (by decide : "if" ∈ reservedWords) hend hparen)
    · exact read_instructionStatement h hall rest

theorem reuse {name : String} (h : IsIdentifier name) (hmem : name ∈ elements) :
    SpellsStatement elements (Node.leaf .reuse name).spelling (.leaf .reuse name) := by
  have hall : ∀ argument ∈ [], IsExpression argument := by simp
  have hspells : SpellsStatement elements _ _ := instruction h hall
  rwa [Node.simpleStatement, if_pos (by simpa using hmem)] at hspells

/-- A construction reads back: with no arguments, its name is that of no element. -/
theorem construct {name : String} {arguments : List Node} (h : IsIdentifier name)
    (hall : ∀ argument ∈ arguments, IsExpression argument)
    (hnew : arguments = [] → name ∉ elements) :
    SpellsStatement elements (Node.mk .construct name arguments).spelling
      (.mk .construct name arguments) := by
  have hspells : SpellsStatement elements _ _ := instruction h hall
  rwa [Node.simpleStatement, if_neg (by simpa using hnew), ← Node.spellings_eq] at hspells

/-! ### Blocks -/

variable {body : List Node} {depth : Nat}

/-- A statement is shorter than the block it is in, which bounds the depth. -/
theorem length_lt_inBraces {node : Node} (h : node ∈ body) :
    node.spelling.length < (inBraces (body.map Node.spelling)).length := by
  obtain ⟨before, after, rfl⟩ := List.append_of_mem h
  simp only [inBraces, List.map_append, List.map_cons, List.flatten_append, List.flatten_cons,
    List.length_cons, List.length_append]
  omega

/-- The statements of a clause. -/
theorem read_body (hbody : ∀ node ∈ body, SpellsStatement elements node.spelling node)
    (hdepth : (inBraces (body.map Node.spelling)).length ≤ depth) (symbol : Symbol)
    (rest : List Char) :
    (Reader.statements symbol (Reader.statementWithin elements depth)).read
      (inBraces (body.map Node.spelling) ++ rest) = some (body, rest) :=
  read_block hbody
    (fun node hnode => (hbody node hnode).reads depth ((length_lt_inBraces hnode).trans_le hdepth))
    (statementWithin_refused depth) symbol rest

/-- A clause is spelled with `case` and a blank, or with `default` alone. -/
theorem spelling_caseClause (label : String) (body : List Node) :
    (Node.mk .caseClause label body).spelling
      = (if label = "default" then label.toList else "case".toList ++ ' ' :: label.toList)
        ++ ':' :: inBraces (body.map Node.spelling) := by
  rw [← Node.spellings_eq]
  rfl

/-- A label reads back, before its colon. -/
theorem read_label {label : String} (h : IsIdentifier label ∨ label = "default")
    (rest : List Char) :
    Reader.label.read
        ((if label = "default" then label.toList else "case".toList ++ ' ' :: label.toList)
          ++ ':' :: rest)
      = some (label, ':' :: rest) := by
  rcases h with h | rfl
  · rw [if_neg (by rintro rfl; exact h.unreserved (by decide)), List.append_assoc]
    refine Reader.read_orElse_left (Reader.read_then (Reader.read_text "case" _) ?_)
    refine Reader.read_then (Reader.read_gap_blank (h.solid _)) ?_
    exact Reader.read_identifier h (noMore_cons rfl rest)
  · rw [if_pos rfl]
    refine (Reader.read_orElse_right rfl).trans ?_
    rw [Reader.read_named]
    exact Reader.read_then (Reader.read_text "default" _) rfl

/-- A clause of a switch reads back if its statements do. -/
theorem caseClause {label : String} (h : IsIdentifier label ∨ label = "default")
    (hbody : ∀ node ∈ body, SpellsStatement elements node.spelling node) :
    SpellsClause elements Reader.caseClause [] (.mk .caseClause label body) where
  solid := by
    rw [spelling_caseClause]
    split
    case isTrue h =>
      subst h
      exact solid_cons rfl (by decide) _
    case isFalse => exact solid_cons rfl (by decide) _
  reads depth hdepth rest := by
    rw [spelling_caseClause, List.length_append, List.length_cons] at hdepth
    rw [spelling_caseClause, List.nil_append, List.append_assoc, Reader.caseClause,
      Reader.read_named]
    refine Reader.read_then (read_label h _) ?_
    refine Reader.read_then (Reader.read_gap_of_settled (settled_cons rfl (by decide) _)) ?_
    refine Reader.read_then (Reader.read_char rfl _) ?_
    refine Reader.read_then (Reader.read_gap_of_settled (settled_cons rfl (by decide) _)) ?_
    exact Reader.read_then (read_body hbody (by omega) _ rest) rfl

/-- A switch is spelled with its name in parentheses and its clauses in braces. -/
theorem spelling_switch (name : String) (clauses : List Node) :
    (Node.branch .switch (.leaf .reference name :: clauses)).spelling
      = "switch".toList ++ '(' :: (name.toList ++ ')' :: inBraces (clauses.map Node.spelling)) := by
  rw [← Node.spellings_eq]
  rfl

/-- A switch reads back if its clauses do. -/
theorem switch {name : String} {clauses : List Node} (h : IsIdentifier name)
    (hclauses : ∀ clause ∈ clauses, SpellsClause elements Reader.caseClause [] clause) :
    SpellsStatement elements
      (Node.branch .switch (.leaf .reference name :: clauses)).spelling
      (.branch .switch (.leaf .reference name :: clauses)) where
  solid := solid_cons rfl (by decide) _
  noElse rest := noElse_cons (by decide) _
  reads depth hdepth rest hrest := by
    obtain ⟨depth, rfl⟩ : ∃ n, depth = n + 1 := ⟨depth - 1, by omega⟩
    rw [spelling_switch] at hdepth ⊢
    simp only [List.length_append, List.length_cons] at hdepth
    refine Reader.read_orElse_left ?_
    rw [Reader.switchStatement, Reader.read_named, List.append_assoc, List.cons_append,
      List.append_assoc, List.cons_append]
    refine Reader.read_then (Reader.read_text "switch" _) ?_
    refine Reader.read_then (Reader.read_gap_of_settled (settled_cons rfl (by decide) _)) ?_
    refine Reader.read_then (Reader.read_char rfl _) ?_
    refine Reader.read_then (Reader.read_gap_of_settled (h.solid _)) ?_
    refine Reader.read_then (Reader.read_identifier h (noMore_cons rfl _)) ?_
    refine Reader.read_then (Reader.read_gap_of_settled (settled_cons rfl (by decide) _)) ?_
    refine Reader.read_then (Reader.read_char rfl _) ?_
    refine Reader.read_then (Reader.read_gap_of_settled (settled_cons rfl (by decide) _)) ?_
    have hitem : ∀ clause ∈ clauses,
        Reads (Reader.caseClause (Reader.statementWithin elements depth)) clause.spelling clause
          fun _ => True := by
      intro clause hclause rest _
      have hlt := length_lt_inBraces hclause
      exact (hclauses clause hclause).reads depth (by omega) rest
    refine Reader.read_then (Reader.read_braced Node.spelling
      (fun clause hclause => (hclauses clause hclause).solid) hitem (fun _ _ _ => trivial)
      (fun _ => trivial) (fun _ => rfl) rest) rfl

/-! ### Chains -/

theorem spelling_ifClause (condition : Node) (body : List Node) :
    (Node.branch .ifClause (condition :: body)).spelling
      = "if".toList ++ '(' :: (condition.spelling ++ ')' :: inBraces (body.map Node.spelling)) := by
  rw [← Node.spellings_eq]
  rfl

/-- An if clause reads back if its statements do. -/
theorem ifClause {condition : Node} (h : IsExpression condition)
    (hbody : ∀ node ∈ body, SpellsStatement elements node.spelling node) :
    SpellsClause elements Reader.ifClause [] (.branch .ifClause (condition :: body)) where
  solid := solid_cons rfl (by decide) _
  reads depth hdepth rest := by
    rw [spelling_ifClause] at hdepth ⊢
    simp only [List.length_append, List.length_cons] at hdepth
    rw [Reader.ifClause, Reader.read_named, List.nil_append, List.append_assoc, List.cons_append,
      List.append_assoc, List.cons_append]
    refine Reader.read_then (Reader.read_text "if" _) ?_
    refine Reader.read_then (Reader.read_gap_of_settled (settled_cons rfl (by decide) _)) ?_
    refine Reader.read_then (Reader.read_char rfl _) ?_
    refine Reader.read_then (Reader.read_gap_of_settled (h.spells.solid _)) ?_
    refine Reader.read_then (h.spells.expression _ (closes_rparen _)) ?_
    refine Reader.read_then (Reader.read_gap_of_settled (closes_rparen _).settled) ?_
    refine Reader.read_then (Reader.read_char rfl _) ?_
    refine Reader.read_then (Reader.read_gap_of_settled (settled_cons rfl (by decide) _)) ?_
    exact Reader.read_then (read_body hbody (by omega) _ rest) rfl

theorem spelling_elseClause (body : List Node) :
    (Node.branch .elseClause body).spelling = inBraces (body.map Node.spelling) := by
  rw [← Node.spellings_eq]
  rfl

/-- An else clause reads back if its statements do. -/
theorem elseClause (hbody : ∀ node ∈ body, SpellsStatement elements node.spelling node) :
    SpellsClause elements Reader.elseClause "else".toList (.branch .elseClause body) where
  solid := solid_cons rfl (by decide) _
  reads depth hdepth rest := by
    rw [spelling_elseClause] at hdepth ⊢
    rw [Reader.elseClause, Reader.read_named]
    refine Reader.read_then (Reader.read_text "else" _) ?_
    refine Reader.read_then (Reader.read_gap_of_settled (settled_cons rfl (by decide) _)) ?_
    exact Reader.read_then (read_body hbody hdepth _ rest) rfl

/-- What a chain ends with. -/
def lastElse (last : Option Node) : List Char :=
  last.elim [] fun clause => "else".toList ++ clause.spelling

/-- A chain is spelled with `else` between its clauses. -/
theorem spelling_ifChain (first : Node) (more : List Node) (last : Option Node) :
    (Node.branch .ifChain (first :: more ++ last.toList)).spelling
      = first.spelling ++ (more.flatMap ("else".toList ++ ·.spelling) ++ lastElse last) := by
  have hspelling : (Node.branch .ifChain (first :: more ++ last.toList)).spelling
      = "else".toList.intercalate (Node.spellings (first :: more ++ last.toList)) := rfl
  rw [hspelling, Node.spellings_eq, List.cons_append, List.map_cons, intercalate_cons]
  cases last <;> simp [lastElse, List.flatMap_map]

theorem ifClause_refused_of_ne {c : Char} (h : 'i' ≠ c) (inner : Reader Node) (rest : List Char) :
    (Reader.ifClause inner).read (c :: rest) = none :=
  Reader.read_stop (Reader.read_text_refused rfl h rest)

/-- The end of a chain is no further `if`. -/
theorem read_lastElse (inner : Reader Node) {last : Option Node} {rest : List Char}
    (hlast : ∀ clause ∈ last, (∃ text, clause.spelling = '\x7b' :: text) ∧
      (Reader.elseClause inner).read ("else".toList ++ (clause.spelling ++ rest))
        = some (clause, rest))
    (hrest : Continues rest) :
    Settled (lastElse last ++ rest) ∧
      (do Reader.text "else"; Reader.gap; Reader.ifClause inner : Reader Node).read
        (lastElse last ++ rest) = none ∧
      (Reader.optional? (Reader.elseClause inner)).read (lastElse last ++ rest)
        = some (last, rest) := by
  rcases last with _ | clause
  · obtain ⟨hmore, hlast⟩ := hrest.noElse inner
    exact ⟨hrest.settled, hmore, Reader.read_optional_none hlast⟩
  · obtain ⟨⟨text, htext⟩, hread⟩ := hlast clause rfl
    rw [lastElse, Option.elim_some, List.append_assoc]
    refine ⟨solid_cons rfl (by decide) _ _, ?_, Reader.read_optional_some hread⟩
    rw [htext]
    refine Reader.read_then (Reader.read_text "else" _) ?_
    refine Reader.read_then (Reader.read_gap_of_settled (settled_cons rfl (by decide) _)) ?_
    exact ifClause_refused_of_ne (by decide) inner _

theorem switchStatement_refused {c : Char} (h : 's' ≠ c) (inner : Reader Node)
    (rest : List Char) : (Reader.switchStatement inner).read (c :: rest) = none :=
  Reader.read_stop (Reader.read_text_refused rfl h rest)

/-- A further `if` clause, behind its `else`. -/
theorem read_elseIf {clause : Node} (h : SpellsClause elements Reader.ifClause [] clause)
    (hdepth : clause.spelling.length ≤ depth) :
    Reads (do Reader.text "else"; Reader.gap
              Reader.ifClause (Reader.statementWithin elements depth))
      ("else".toList ++ clause.spelling) clause fun _ => True := by
  intro rest _
  rw [List.append_assoc]
  refine Reader.read_then (Reader.read_text "else" _) ?_
  exact Reader.read_then (Reader.read_gap_of_settled (h.solid rest)) (h.reads depth hdepth rest)

/-- A chain reads back if its clauses do, up to the one without a condition. -/
theorem ifChain {first : Node} {more : List Node} {last : Option Node}
    (hstart : ∃ text, first.spelling = 'i' :: text)
    (hclauses : ∀ clause ∈ first :: more, SpellsClause elements Reader.ifClause [] clause)
    (hend : ∀ clause ∈ last, ∃ text, clause.spelling = '\x7b' :: text)
    (hlast : ∀ clause ∈ last, SpellsClause elements Reader.elseClause "else".toList clause) :
    SpellsStatement elements (Node.branch .ifChain (first :: more ++ last.toList)).spelling
      (.branch .ifChain (first :: more ++ last.toList)) := by
  obtain ⟨text, htext⟩ := hstart
  obtain ⟨hfirst, hmore⟩ := List.forall_mem_cons.1 hclauses
  refine ⟨?_, fun rest => ?_, fun depth hdepth rest hrest => ?_⟩
  · rw [spelling_ifChain, htext]
    exact solid_cons rfl (by decide) _
  · rw [spelling_ifChain, htext]
    exact noElse_cons (by decide) _
  · obtain ⟨depth, rfl⟩ : ∃ n, depth = n + 1 := ⟨depth - 1, by omega⟩
    rw [spelling_ifChain] at hdepth ⊢
    simp only [List.length_append] at hdepth
    have hdepths : ∀ clause ∈ more, clause.spelling.length ≤ depth := by
      intro clause hclause
      obtain ⟨before, after, rfl⟩ := List.append_of_mem hclause
      simp only [List.flatMap_append, List.flatMap_cons, List.length_append] at hdepth
      omega
    have helse : ∀ clause ∈ last,
        (Reader.elseClause (Reader.statementWithin elements depth)).read
          ("else".toList ++ (clause.spelling ++ rest)) = some (clause, rest) := by
      rintro clause rfl
      simp only [lastElse, Option.elim_some, List.length_append] at hdepth
      exact (hlast clause rfl).reads depth (by omega) rest
    obtain ⟨hsettled, hrefused, hoptional⟩ := read_lastElse
      (Reader.statementWithin elements depth)
      (fun clause hclause => ⟨hend clause hclause, helse clause hclause⟩) hrest
    have hseries := Reader.read_series [] ("else".toList ++ ·.spelling) .nil
      (fun _ _ => solid_cons rfl (by decide) _)
      (fun clause hclause => read_elseIf (hmore clause hclause) (hdepths clause hclause))
      (fun _ _ _ => trivial) trivial hsettled hrefused
    rw [List.append_assoc]
    refine (Reader.read_orElse_right ?_).trans (Reader.read_orElse_left ?_)
    · rw [htext]
      exact switchStatement_refused (by decide) _ _
    · rw [Reader.ifStatement, Reader.read_named, List.append_assoc]
      refine Reader.read_then (hfirst.reads depth (by omega) _) ?_
      refine Reader.read_then (Reader.read_gap _) (Reader.read_then hseries ?_)
      exact Reader.read_then (Reader.read_gap_of_settled hsettled) (Reader.read_then hoptional rfl)

end SpellsStatement

theorem IsIfClause.start {elements : List String} {clause : Node} (h : IsIfClause elements clause) :
    ∃ text, clause.spelling = 'i' :: text := by
  obtain ⟨_, _⟩ := h
  exact ⟨_, rfl⟩

theorem IsElseClause.start {elements : List String} {clause : Node}
    (h : IsElseClause elements clause) : ∃ text, clause.spelling = '\x7b' :: text := by
  obtain ⟨_⟩ := h
  exact ⟨_, rfl⟩

mutual

/-- **Every statement is read from its spelling.** -/
theorem IsStatement.spells {elements : List String} :
    ∀ {node : Node}, IsStatement elements node → SpellsStatement elements node.spelling node
  | _, .reuse h hmem => .reuse h hmem
  | _, .construct h all hnew => .construct h all hnew
  | _, .switch h all => .switch h fun clause hclause => (all clause hclause).spells
  | _, @IsStatement.ifChain _ [] _ hne _ _ => absurd rfl hne
  | _, @IsStatement.ifChain _ (_ :: _) _ _ all hlast =>
    .ifChain (all _ List.mem_cons_self).start (fun clause hclause => (all clause hclause).spells)
      (fun clause hclause => (hlast clause hclause).start)
      fun clause hclause => (hlast clause hclause).spells

theorem IsCaseClause.spells {elements : List String} :
    ∀ {clause : Node}, IsCaseClause elements clause →
      SpellsClause elements Reader.caseClause [] clause
  | _, .mk h all => SpellsStatement.caseClause h fun node hnode => (all node hnode).spells

theorem IsIfClause.spells {elements : List String} :
    ∀ {clause : Node}, IsIfClause elements clause → SpellsClause elements Reader.ifClause [] clause
  | _, .mk h all => SpellsStatement.ifClause h fun node hnode => (all node hnode).spells

theorem IsElseClause.spells {elements : List String} :
    ∀ {clause : Node}, IsElseClause elements clause →
      SpellsClause elements Reader.elseClause "else".toList clause
  | _, .mk all => SpellsStatement.elseClause fun node hnode => (all node hnode).spells

end

end Peephole

import Peephole.Layout
import Peephole.Proofs.C.Printing

/-!
# Proofs/C/MatcherText — the text of a matcher, read back as C

The match side and the body of a matcher are data, and so is the C they are meant to be
(`MatchStep.toStmt`, `Body.toStmts`).  Their texts read as just that (`MatchSide.read_template`,
`Body.read_text`), as long as names are words.
-/

namespace Peephole

open C

/-! ## Match steps -/

/-- The opcode that values make of what a guard asks for. -/
def Opcode.resolve (values : List String) : Opcode → String
  | literal name => name
  | slot index => values[index]?.getD ""

namespace MatchStep

/-- The statement that a step is meant to be. -/
def toStmt (values : List String) : MatchStep → Stmt
  | cursor name none => .declareCode name (.unary .deref (.name "c"))
  | cursor name (some previous) => .declareCode name (.call "next" [.name previous])
  | argument name => .declareInt name
  | opcode asked place arguments =>
    .branch
      (.unary .not (.call ("is_" ++ asked.resolve values)
        (.name place :: arguments.map fun name => .unary .address (.name name))))
      [.ret (.number "0")] []
  | present place =>
    .branch (.binary (.condition .eq) (.name place) (.name "NULL")) [.ret (.number "0")] []
  | equal later first =>
    .branch (.binary (.condition .ne) (.name later) (.name first)) [.ret (.number "0")] []

/-- The names of a step are names, and its opcode is made of the characters of words. -/
def Readable (values : List String) : MatchStep → Prop
  | cursor name previous => IsName name ∧ ∀ earlier ∈ previous, IsName earlier
  | argument name => IsName name
  | opcode asked place arguments =>
    WordChars (asked.resolve values) ∧ IsName place ∧ ∀ name ∈ arguments, IsName name
  | present place => IsName place
  | equal later first => IsName later ∧ IsName first

end MatchStep

theorem IsName.term {text : String} (h : IsName text) : SpellsTerm text.toList (.name text) :=
  h.operand.term

/-- The address of a name is an expression. -/
theorem spellsTerm_address {name : String} (h : IsName name) :
    SpellsTerm ("&" ++ name).toList (.unary .address (.name name)) := by
  refine SpellsOperand.term ⟨.punct .amp :: [.name name], fun rest hrest => ?_,
    (readsOperand_name name).unary (by simp) fun _ => rfl⟩
  rw [String.toList_append, List.append_assoc]
  exact h.lex_behind (by decide) (by decide) rfl hrest

/-- Two names with a comparison between them are an expression. -/
theorem spellsTerm_compare {first second : String} (op : Condition) (hf : IsName first)
    (hs : IsName second) :
    SpellsTerm (first ++ " " ++ op.token ++ " " ++ second).toList
      (.binary (.condition op) (.name first) (.name second)) := by
  refine ⟨_, fun rest hrest => ?_,
    (readsOperand_name first).chained (.condition op) [([.name second], .name second)]
      (by simpa using readsOperand_name second)⟩
  have hop : lex (op.token.toList ++ ' ' :: (second.toList ++ rest))
      = prepend [.punct (.operator (.condition op))] (lex (second.toList ++ rest)) :=
    lex_operator (.condition op) (second.toList ++ rest)
  have hfirst := hf.spells (' ' :: (op.token.toList ++ ' ' :: (second.toList ++ rest)))
    (ends_cons.2 (by decide))
  rw [lex_space, hop, hs.spells rest hrest] at hfirst
  simpa using hfirst

/-- The guard on an opcode. -/
theorem spellsTerm_isCode {opcode place : String} {arguments : List String} (ho : WordChars opcode)
    (hp : IsName place) (ha : ∀ name ∈ arguments, IsName name) :
    SpellsTerm ("!is_" ++ opcode ++ "(" ++ place ++ String.join (arguments.map (", &" ++ ·)) ++
        ")").toList
      (.unary .not (.call ("is_" ++ opcode)
        (.name place :: arguments.map fun name => .unary .address (.name name)))) := by
  have htexts : ("!is_" ++ opcode ++ "(" ++ place ++ String.join (arguments.map (", &" ++ ·)) ++
      ")").toList = '!' :: ("is_" ++ opcode ++ "(" ++
        ", ".intercalate (place :: arguments.map ("&" ++ ·)) ++ ")").toList := by
    simp only [String.toList_append, toList_intercalate_cons, String.toList_join, List.flatMap_map]
    simp
  have harguments : List.Forall₂ (fun text value => SpellsTerm text.toList value)
      (arguments.map ("&" ++ ·)) (arguments.map fun name => .unary .address (.name name)) := by
    rw [List.forall₂_map_left_iff, List.forall₂_map_right_iff, List.forall₂_same]
    exact fun name hname => spellsTerm_address (ha name hname)
  obtain ⟨tokens, hs, hr⟩ := spells_call (isName_isCode ho) (.cons hp.term harguments) (by simp)
  rw [htexts]
  refine SpellsOperand.term ⟨.punct .bang :: tokens, fun rest hrest => ?_,
    hr.unary (by simp) fun _ => rfl⟩
  have hcall := hs rest hrest
  have hstart : ∀ text : String, ∃ more, ("is_" ++ opcode ++ "(" ++ text ++ ")").toList ++ rest
      = 'i' :: more := fun text =>
    ⟨'s' :: '_' :: (opcode.toList ++ '(' :: (text.toList ++ ')' :: rest)), by simp⟩
  obtain ⟨more, hmore⟩ := hstart (", ".intercalate (place :: arguments.map ("&" ++ ·)))
  rw [List.cons_append]
  rw [hmore] at hcall ⊢
  rw [lex_single (by decide) (by decide) rfl (by decide), hcall, prepend_prepend]
  rfl

theorem spellsTerm_start : SpellsTerm "*c".toList (.unary .deref (.name "c")) := by
  refine SpellsOperand.term ⟨.punct (.operator (.arithmetic .mul)) :: [.name "c"],
    fun rest hrest => ?_, (readsOperand_name "c").unary (by simp) fun _ => rfl⟩
  exact (isName_fixed (by decide : "c" ∈ _)).lex_behind (by decide) (by decide) rfl hrest

theorem spellsTerm_next {cursor : String} (h : IsName cursor) :
    SpellsTerm ("next(" ++ cursor ++ ")").toList (.call "next" [.name cursor]) := by
  have hcall := spells_call (isName_fixed (by decide : "next" ∈ _)) (.cons h.term .nil) (by simp)
  simpa using hcall.term

/-- The text of a step is a line of the depth of a function body. -/
theorem spellsStmt_of_eq {text line : String} {stmt : Stmt} (h : SpellsStmt line.toList stmt)
    (he : line.toList = text.toList) : SpellsStmt text.toList stmt := he ▸ h

@[simp] theorem Opcode.instantiate_template (values : List String) (asked : Opcode) :
    asked.template.instantiate values = asked.resolve values := by
  cases asked <;> simp [Opcode.template, Opcode.resolve]

/-- **The line of a step reads as the statement it is meant to be.** -/
theorem MatchStep.spells_template {values : List String} {step : MatchStep}
    (h : step.Readable values) :
    SpellsStmt (step.template.instantiate values).toList (step.toStmt values) := by
  have hdepth : (indentation 1).toList = [' ', ' ', ' ', ' '] := by decide
  have hnull : IsName "NULL" := isName_fixed (by decide)
  cases step with
  | cursor name previous =>
    cases previous with
    | none =>
      refine spellsStmt_of_eq (spellsStmt_declareCode 1 h.1 spellsTerm_start) ?_
      simp [MatchStep.template, hdepth]
    | some previous =>
      refine spellsStmt_of_eq (spellsStmt_declareCode 1 h.1 (spellsTerm_next (h.2 _ rfl))) ?_
      simp [MatchStep.template, hdepth]
  | argument name =>
    refine spellsStmt_of_eq (spellsStmt_declareInt 1 h) ?_
    simp [MatchStep.template, hdepth]
  | opcode asked place arguments =>
    refine spellsStmt_of_eq (spellsStmt_guard 1 (spellsTerm_isCode h.1 h.2.1 h.2.2)) ?_
    simp [MatchStep.template, hdepth]
  | present place =>
    refine spellsStmt_of_eq (spellsStmt_guard 1 (spellsTerm_compare .eq h hnull)) ?_
    simp [MatchStep.template, hdepth, Condition.token]
  | equal later first =>
    refine spellsStmt_of_eq (spellsStmt_guard 1 (spellsTerm_compare .ne h.1 h.2)) ?_
    simp [MatchStep.template, hdepth, Condition.token]

/-- The lines of steps and the lines behind them. -/
theorem MatchStep.spells_append {values : List String} {steps : List MatchStep}
    (h : ∀ step ∈ steps, step.Readable values) {more : List Char} {stmts : List Stmt}
    (hmore : SpellsStmts more stmts) :
    SpellsStmts
      (((Template.concat (steps.map MatchStep.template)).instantiate values).toList ++ more)
      (steps.map (MatchStep.toStmt values) ++ stmts) := by
  induction steps with
  | nil => simpa [Template.instantiate_concat] using hmore
  | cons step steps ih =>
    rw [List.forall_mem_cons] at h
    have hcons := (MatchStep.spells_template h.1).cons (ih h.2)
    rw [Template.instantiate_concat] at hcons ⊢
    simpa using hcons

/-- **The lines of a match side read as the statements of its steps.** -/
theorem MatchSide.read_template {side : MatchSide} {values : List String}
    (h : ∀ step ∈ side.steps, step.Readable values) :
    C.read (side.template.instantiate values)
      = some (side.steps.map (MatchStep.toStmt values)) := by
  have hspells := MatchStep.spells_append h spellsStmts_nil
  rw [List.append_nil, List.append_nil] at hspells
  exact hspells.read

/-! ## Bodies -/

/-- The expression that makes a node. -/
def Value.toTerm : Value → Term
  | make opcode arguments =>
    .call ("makeCODE" ++ opcode) (Expr.toTerms arguments ++ [.name "NULL"])
  | copy cursor => .call "copyCODE" [.name cursor]

/-- A new node reads back: its opcode is spelled in word characters and its arguments read back, or
the cursor it copies is a name. -/
def Value.Readable : Value → Prop
  | make opcode arguments => WordChars opcode ∧ Expr.ReadableAll arguments
  | copy cursor => IsName cursor

mutual

/-- The statements that a body is meant to be. -/
def Body.toStmts : Body → List Stmt
  | .declare node value rest => .declareCode (nodeLocal node) value.toTerm :: rest.toStmts
  | .link last node rest =>
    .setField (nodeLocal last) "next" (.name (nodeLocal node)) :: rest.toStmts
  | .linkRest last cursor rest =>
    .setField (nodeLocal last) "next" (.call "next" [.name cursor]) :: rest.toStmts
  | .replace consumed head =>
    [.ret (.call "replace" [.name "c", .number (toString consumed),
      .name ((head.map nodeLocal).getD "NULL")])]
  | .giveUp => [.ret (.number "0")]
  | .branch condition body more => [.branch condition.toTerm body.toStmts more.toStmts]

/-- What stands behind the else of a clause. -/
def Branch.toStmts : Branch → List Stmt
  | .elseIf condition body more => [.branch condition.toTerm body.toStmts more.toStmts]
  | .otherwise body => body.toStmts

end

mutual

/-- The cursors of a body are names, and its expressions can be read. -/
def Body.Readable : Body → Prop
  | .declare _ value rest => value.Readable ∧ rest.Readable
  | .link _ _ rest => rest.Readable
  | .linkRest _ cursor rest => IsName cursor ∧ rest.Readable
  | .replace _ _ => True
  | .giveUp => True
  | .branch condition body more => condition.Readable ∧ body.Readable ∧ more.Readable

/-- All bodies and conditions of a branch read back. -/
def Branch.Readable : Branch → Prop
  | .elseIf condition body more => condition.Readable ∧ body.Readable ∧ more.Readable
  | .otherwise body => body.Readable

end

/-- The text for a new node is the call that makes it. -/
theorem Value.spells_text {value : Value} (h : value.Readable) :
    SpellsTerm value.text.toList value.toTerm := by
  cases value with
  | make opcode arguments =>
    have hnull : IsName "NULL" := isName_fixed (by decide)
    have harguments : List.Forall₂ (fun text value => SpellsTerm text.toList value)
        (Expr.texts arguments) (Expr.toTerms arguments) :=
      (Expr.spells_texts arguments h.2).imp fun _ _ hs => hs.term
    have hall := List.rel_append harguments (.cons hnull.term .nil)
    exact (spells_call (isName_makeCode h.1) hall (by simp)).term
  | copy cursor =>
    have hcall := spells_call (isName_fixed (by decide : "copyCODE" ∈ _))
      (.cons (IsName.term h) .nil) (by simp)
    simpa [Value.text, Value.toTerm] using hcall.term

/-- The call of `replace` reads back, with its count. -/
theorem spellsTerm_replace (consumed : Nat) {head : String} (h : IsName head) :
    SpellsTerm ("replace(c, " ++ toString consumed ++ ", " ++ head ++ ")").toList
      (.call "replace" [.name "c", .number (toString consumed), .name head]) := by
  have hnumber : SpellsTerm (toString consumed).toList (.number (toString consumed)) := by
    have hdigits := (isDigits_toString consumed).operand.term
    rwa [String.ofList_toList] at hdigits
  have hcall := spells_call (isName_fixed (by decide : "replace" ∈ _))
    (.cons (isName_fixed (by decide : "c" ∈ _)).term (.cons hnumber (.cons h.term .nil))) (by simp)
  refine Eq.mp (congrArg (SpellsTerm · _) ?_) hcall.term
  simp

/-- The condition of a clause, up to the brace that opens its statements. -/
theorem Expr.lex_condition {condition : Expr} (h : condition.Readable) :
    ∃ tokens, ReadsTerm tokens condition.toTerm ∧ ∀ rest,
      lex ('(' :: (condition.text.toList ++ ')' :: ' ' :: '\x7b' :: '\n' :: rest))
        = prepend (.punct .lparen :: (tokens ++ [.punct .rparen, .punct .lbrace])) (lex rest) := by
  obtain ⟨tokens, hs, hr⟩ := Expr.spells_text condition h
  refine ⟨tokens, hr.term, fun rest => ?_⟩
  rw [lex_lparen, hs _ (ends_cons.2 (by decide))]
  simp

/-- A text that ends a clause: its closing brace, `else`, and what that governs. -/
def SpellsElse (text : List Char) (stmts : List Stmt) : Prop :=
  ∃ tokens, (∀ rest, lex (text ++ rest)
    = prepend (.punct .rbrace :: .keyword .elseWord :: tokens) (lex rest)) ∧ ReadsBody tokens stmts

/-- **A clause and what follows it, as one statement.** -/
theorem spells_clause {condition : Expr} (h : condition.Readable) {body more : List Char}
    {yes no : List Stmt} (hbody : SpellsStmts body yes) (hmore : SpellsElse more no) :
    ∃ tokens, ReadsStmt tokens (.branch condition.toTerm yes no) ∧ ∀ rest,
      lex ('i' :: 'f' :: ' ' :: '(' :: (condition.text.toList ++ ')' :: ' ' :: '\x7b' :: '\n' ::
        (body ++ (more ++ rest)))) = prepend tokens (lex rest) := by
  obtain ⟨tokens, hr, hcondition⟩ := Expr.lex_condition h
  obtain ⟨yesTokens, hbs, hbr⟩ := hbody
  obtain ⟨noTokens, hms, hmr⟩ := hmore
  refine ⟨_, hr.branched hbr hmr, fun rest => ?_⟩
  rw [lex_if, hcondition, hbs, hms]
  simp

mutual

/-- **A body reads as the statements it is meant to be**, at any depth. -/
theorem Body.spells_text : ∀ (body : Body) (depth : Nat), body.Readable →
    SpellsStmts (body.text depth).toList body.toStmts
  | .declare node value rest, depth, h => by
    rw [Body.Readable] at h
    have hline := spellsStmt_declareCode depth (isName_nodeLocal node) (Value.spells_text h.1)
    have hcons := hline.cons (Body.spells_text rest depth h.2)
    rw [Body.text, Body.toStmts]
    simpa using hcons
  | .link last node rest, depth, h => by
    rw [Body.Readable] at h
    have hline := spellsStmt_setNext depth (isName_nodeLocal last) (isName_nodeLocal node).term
    have hcons := hline.cons (Body.spells_text rest depth h)
    rw [Body.text, Body.toStmts]
    simpa using hcons
  | .linkRest last cursor rest, depth, h => by
    rw [Body.Readable] at h
    have hline := spellsStmt_setNext depth (isName_nodeLocal last) (spellsTerm_next h.1)
    have hcons := hline.cons (Body.spells_text rest depth h.2)
    rw [Body.text, Body.toStmts]
    simpa using hcons
  | .replace consumed head, depth, _ => by
    have hhead : IsName ((head.map nodeLocal).getD "NULL") := by
      cases head with
      | none => exact isName_fixed (by decide)
      | some node => exact isName_nodeLocal node
    have hline := spellsStmt_ret depth (spellsTerm_replace consumed hhead)
    have hcons := hline.cons spellsStmts_nil
    rw [Body.text, Body.toStmts]
    simpa using hcons
  | .giveUp, depth, _ => by
    have hcons := (spellsStmt_ret depth spellsTerm_zero).cons spellsStmts_nil
    rw [Body.text, Body.toStmts]
    simpa using hcons
  | .branch condition body more, depth, h => by
    rw [Body.Readable] at h
    obtain ⟨tokens, hr, hlex⟩ := spells_clause h.1 (Body.spells_text body (depth + 1) h.2.1)
      (Branch.spells_text more depth h.2.2)
    rw [Body.text, Body.toStmts]
    refine ⟨tokens ++ [], fun rest => ?_, ReadsStmts.cons hr readsStmts_nil⟩
    simpa using hlex rest

/-- The text behind the end of a branch is its `else` part. -/
theorem Branch.spells_text : ∀ (branch : Branch) (depth : Nat), branch.Readable →
    SpellsElse (branch.text depth).toList branch.toStmts
  | .elseIf condition body more, depth, h => by
    rw [Branch.Readable] at h
    obtain ⟨tokens, hr, hlex⟩ := spells_clause h.1 (Body.spells_text body (depth + 1) h.2.1)
      (Branch.spells_text more depth h.2.2)
    rw [Branch.text, Branch.toStmts]
    refine ⟨tokens, fun rest => ?_, hr.body⟩
    simp [lex_else, hlex]
  | .otherwise body, depth, h => by
    rw [Branch.Readable] at h
    obtain ⟨tokens, hs, hr⟩ := Body.spells_text body (depth + 1) h
    rw [Branch.text, Branch.toStmts]
    refine ⟨_, fun rest => ?_, hr.body⟩
    simp [lex_else, hs]

end

/-- **The text of a body is the C it is meant to be.** -/
theorem Body.read_text {body : Body} (h : body.Readable) (depth : Nat) :
    C.read (body.text depth) = some body.toStmts :=
  (Body.spells_text body depth h).read

end Peephole

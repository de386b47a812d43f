import Mathlib.Data.List.TakeWhile
import Peephole.Grammar.SyntaxError
import Peephole.Proofs.Names

/-!
# Proofs/Grammar/TreeLanguage — the trees that pattern files have

A tree carries no condition of its own, but reading makes only some trees: identifiers are
identifiers, an operator has two operands or more, an else comes last, and a statement copies a
match element exactly when it has no arguments and bears the element's name.  `IsProgram` collects
all of this, and `isProgram_of_parse` says that every tree read from a text has it.

The proof goes through the readers: `Yields reader P` says that whatever the reader takes has the
property `P`, and each way of building readers keeps it.
-/

namespace Peephole

/-! ## The language -/

/-- An expression.  The first operand is none of the same operator, for it would take the further
operands itself. -/
inductive IsExpression : Node → Prop where
  | integer {text : String} (h : IsInteger text) : IsExpression (.leaf .integer text)
  | reference {text : String} (h : IsIdentifier text) : IsExpression (.leaf .reference text)
  | operation {kind : Kind} {op : Operator} {operands : List Node} (hop : kind.operator? = some op)
    (two : 2 ≤ operands.length) (all : ∀ operand ∈ operands, IsExpression operand)
    (first : ∀ operand ∈ operands.head?, operand.kind ≠ kind) :
    IsExpression (.branch kind operands)

mutual

/-- A statement of a rule whose match elements have the given names. -/
inductive IsStatement (elements : List String) : Node → Prop where
  | reuse {name : String} (h : IsIdentifier name) (hmem : name ∈ elements) :
    IsStatement elements (.leaf .reuse name)
  | construct {name : String} {arguments : List Node} (h : IsIdentifier name)
    (all : ∀ argument ∈ arguments, IsExpression argument)
    (hnew : arguments = [] → name ∉ elements) : IsStatement elements (.mk .construct name arguments)
  | switch {name : String} {clauses : List Node} (h : IsIdentifier name)
    (all : ∀ clause ∈ clauses, IsCaseClause elements clause) :
    IsStatement elements (.branch .switch (.leaf .reference name :: clauses))
  | ifChain {clauses : List Node} {last : Option Node} (hne : clauses ≠ [])
    (all : ∀ clause ∈ clauses, IsIfClause elements clause)
    (hlast : ∀ clause ∈ last, IsElseClause elements clause) :
    IsStatement elements (.branch .ifChain (clauses ++ last.toList))

/-- A case of a switch. -/
inductive IsCaseClause (elements : List String) : Node → Prop where
  | mk {label : String} {body : List Node} (h : IsIdentifier label ∨ label = "default")
    (all : ∀ statement ∈ body, IsStatement elements statement) :
    IsCaseClause elements (.mk .caseClause label body)

/-- A condition and its statements. -/
inductive IsIfClause (elements : List String) : Node → Prop where
  | mk {condition : Node} {body : List Node} (h : IsExpression condition)
    (all : ∀ statement ∈ body, IsStatement elements statement) :
    IsIfClause elements (.branch .ifClause (condition :: body))

/-- The statements of an else. -/
inductive IsElseClause (elements : List String) : Node → Prop where
  | mk {body : List Node} (all : ∀ statement ∈ body, IsStatement elements statement) :
    IsElseClause elements (.branch .elseClause body)

end

/-- An opcode or an alias. -/
inductive IsInstruction : Node → Prop where
  | mk {name : String} (h : IsIdentifier name) : IsInstruction (.leaf .instruction name)

/-- A set of instructions. -/
inductive IsInstructionSet : Node → Prop where
  | mk {instructions : List Node} (hne : instructions ≠ [])
    (all : ∀ instruction ∈ instructions, IsInstruction instruction) :
    IsInstructionSet (.branch .instructionSet instructions)

/-- A name for an argument. -/
inductive IsCapture : Node → Prop where
  | mk {name : String} (h : IsIdentifier name) : IsCapture (.leaf .reference name)

/-- What a match element asks for, and the names of its arguments. -/
inductive IsElementBody : List Node → Prop where
  | wildcard : IsElementBody [.leaf .wildcard ""]
  | asking {body : Node} {captures : List Node} (h : IsInstructionSet body ∨ IsInstruction body)
    (all : ∀ capture ∈ captures, IsCapture capture) : IsElementBody (body :: captures)

/-- A match element. -/
inductive IsElement : Node → Prop where
  | named {name : String} {body : List Node} (h : IsIdentifier name) (hbody : IsElementBody body) :
    IsElement (.mk .namedElement name body)
  | unnamed {body : List Node} (hbody : IsElementBody body) :
    IsElement (.branch .unnamedElement body)

theorem IsElement.isElementBody {node : Node} (h : IsElement node) :
    IsElementBody node.children := by
  rcases h with ⟨-, hbody⟩ | hbody
  · exact hbody
  · exact hbody

/-- A rule. -/
inductive IsRule : Node → Prop where
  | mk {name : String} {elements body : List Node} (h : IsIdentifier name) (hne : elements ≠ [])
    (all : ∀ element ∈ elements, IsElement element)
    (hbody : ∀ statement ∈ body, IsStatement (Node.elementNames elements) statement) :
    IsRule (.mk .rule name [.branch .pattern elements, .branch .replacement body])

/-- A declaration of an alias. -/
inductive IsDeclaration : Node → Prop where
  | mk {name : String} {set : Node} (h : IsIdentifier name) (hset : IsInstructionSet set) :
    IsDeclaration (.branch .declaration [.leaf .identifier name, set])

/-- A pattern file. -/
inductive IsProgram : Node → Prop where
  | mk {declarations rules : List Node}
    (hdeclarations : ∀ declaration ∈ declarations, IsDeclaration declaration)
    (hrules : ∀ rule ∈ rules, IsRule rule) :
    IsProgram (.branch .program (declarations ++ rules))

/-! ## What readers yield -/

/-- **Whatever the reader takes has the property.** -/
def Yields {α : Type} (reader : Reader α) (P : α → Prop) : Prop :=
  ∀ text value rest, reader.read text = some (value, rest) → P value

namespace Yields

variable {α β : Type} {P : α → Prop} {Q : β → Prop} {reader : Reader α}

theorem pure {value : α} (h : P value) : Yields (Pure.pure value : Reader α) P := by
  intro text value' rest hread
  rw [Reader.read_pure] at hread
  obtain ⟨rfl, -⟩ := Prod.mk.inj (Option.some.inj hread)
  exact h

/-- A sequence yields what its last reader yields for what the first one yields. -/
theorem bind {next : α → Reader β} (h : Yields reader P)
    (hnext : ∀ value, P value → Yields (next value) Q) : Yields (reader >>= next) Q := by
  intro text value rest hread
  rw [Reader.read_bind, Option.bind_eq_some_iff] at hread
  obtain ⟨⟨first, remaining⟩, hfirst, hsecond⟩ := hread
  exact hnext first (h _ _ _ hfirst) _ _ _ hsecond

/-- What is read first does not matter. -/
theorem after {next : α → Reader β} (h : ∀ value, Yields (next value) Q) :
    Yields (reader >>= next) Q :=
  bind (P := fun _ => True) (fun _ _ _ _ => trivial) fun value _ => h value

/-- Alternatives yield what each of them yields. -/
theorem orElse {first second : Reader α} (hf : Yields first P) (hs : Yields second P) :
    Yields (first <|> second) P := by
  intro text value rest hread
  rw [Reader.read_orElse, Option.or_eq_some_iff] at hread
  rcases hread with hread | ⟨-, hread⟩
  · exact hf _ _ _ hread
  · exact hs _ _ _ hread

theorem named (symbol : Symbol) (h : Yields reader P) : Yields (Reader.named symbol reader) P := h

theorem failure : Yields (failure : Reader α) P := fun _ _ _ hread => by
  simp at hread

/-- What is yielded at each depth is yielded at the one that the text allows. -/
theorem nested {readers : Nat → Reader α} (h : ∀ depth, Yields (readers depth) P) :
    Yields (Reader.nested readers) P := fun text _ _ hread => h (text.length + 1) _ _ _ hread

theorem optional (h : Yields reader P) :
    Yields (Reader.optional? reader) fun result => ∀ value ∈ result, P value := by
  refine orElse (bind h fun value hvalue => pure ?_) (pure ?_)
  · rintro _ ⟨⟩
    exact hvalue
  · rintro _ ⟨⟩

/-- A repetition yields values that the reader yields. -/
theorem many (h : Yields reader P) :
    Yields (Reader.many reader) fun values => ∀ value ∈ values, P value := by
  have hrounds : ∀ rounds text, ∀ value ∈ (Reader.readMany reader rounds text).1, P value := by
    intro rounds
    induction rounds with
    | zero => simp [Reader.readMany]
    | succ rounds ih =>
      intro text value hvalue
      rw [Reader.readMany] at hvalue
      split at hvalue
      case h_1 => simp at hvalue
      case h_2 first rest hread =>
        rcases List.mem_cons.1 hvalue with rfl | hvalue
        · exact h _ _ _ hread
        · exact ih rest value hvalue
  intro text values rest hread
  rw [Reader.read_many] at hread
  have hvalues := hrounds (text.length + 1) text
  rwa [Option.some.inj hread] at hvalues

theorem series (h : Yields reader P) :
    Yields (Reader.series reader) fun values => ∀ value ∈ values, P value := by
  refine orElse (bind h fun first hfirst => bind (many (after fun _ => h)) fun more hmore => ?_)
    (pure (by simp))
  exact pure (List.forall_mem_cons.2 ⟨hfirst, hmore⟩)

/-- A list with commas yields at least one value. -/
theorem commaSeparated (h : Yields reader P) :
    Yields (Reader.commaSeparated reader) fun values =>
      values ≠ [] ∧ ∀ value ∈ values, P value := by
  refine bind h fun first hfirst => after fun _ => ?_
  refine bind (series (after fun _ => after fun _ => h)) fun more hmore => ?_
  exact pure ⟨by simp, List.forall_mem_cons.2 ⟨hfirst, hmore⟩⟩

/-- A list in parentheses may be empty. -/
theorem parenthesized (h : Yields reader P) :
    Yields (Reader.parenthesized reader) fun values => ∀ value ∈ values, P value := by
  refine after fun _ => after fun _ => bind (optional (commaSeparated h)) fun items hitems => ?_
  refine after fun _ => after fun _ => pure ?_
  cases items with
  | none => simp
  | some items => exact (hitems items rfl).2

theorem braced (h : Yields reader P) :
    Yields (Reader.braced reader) fun values => ∀ value ∈ values, P value := by
  refine after fun _ => after fun _ => bind (series h) fun items hitems => ?_
  exact after fun _ => after fun _ => pure hitems

end Yields

/-! ## Lexemes -/

/-- What is read as an identifier is one. -/
theorem yields_identifier : Yields Reader.identifier IsIdentifier := by
  intro text value rest hread
  rw [Reader.identifier, Reader.read_token, scanIdentifier] at hread
  split at hread
  case h_1 => simp at hread
  case h_2 c more hword =>
    split at hread
    case isFalse => simp at hread
    case isTrue hstart =>
      rw [Bool.and_eq_true, Bool.not_eq_true'] at hstart
      obtain ⟨rfl, -⟩ := Prod.mk.inj (Option.some.inj hread)
      refine ⟨⟨c, more, ?_, hstart.1⟩, ?_, ?_⟩
      · rw [String.toList_ofList]
        exact hword
      · intro d hd
        rw [String.toList_ofList] at hd
        exact List.mem_takeWhile_imp hd
      · simpa using hstart.2

/-- What is read as an integer literal is one. -/
theorem yields_integer : Yields Reader.integer IsInteger := by
  have hdigits : ∀ {text : List Char}, text.takeWhile Char.isDigit ≠ [] →
      IsDigits (text.takeWhile Char.isDigit) := fun hne =>
    ⟨hne, fun c hc => List.mem_takeWhile_imp hc⟩
  have hscan : ∀ sign text value rest, scanDigits sign text = some (value, rest) →
      ∃ digits, IsDigits digits ∧ value = String.ofList (sign ++ digits) := by
    intro sign text value rest hscan
    rw [scanDigits] at hscan
    split at hscan
    case h_1 => simp at hscan
    case h_2 hne =>
      obtain ⟨rfl, -⟩ := Prod.mk.inj (Option.some.inj hscan)
      exact ⟨_, hdigits hne, rfl⟩
  intro text value rest hread
  rw [Reader.integer, Reader.read_token, scanInteger.eq_def] at hread
  split at hread
  · obtain ⟨digits, hd, rfl⟩ := hscan _ _ _ _ hread
    exact .negative hd
  · obtain ⟨digits, hd, rfl⟩ := hscan _ _ _ _ hread
    exact .plain hd

/-! ## Expressions -/

/-- An operator that joins two expressions makes an expression. -/
theorem IsExpression.extend {lhs rhs : Node} {kind : Kind} {op : Operator}
    (hop : kind.operator? = some op) (hl : IsExpression lhs) (hr : IsExpression rhs) :
    IsExpression (lhs.extend kind rhs) := by
  unfold Node.extend
  split
  case isTrue h =>
    -- Only an operation has the kind of an operator, and it takes one more operand.
    cases hl with
    | integer _ => simp at h
    | reference _ => simp at h
    | @operation kind' _ operands hop' two all first =>
      refine .operation hop' (by simp; omega) ?_ ?_
      · intro operand ho
        rcases List.mem_append.1 ho with ho | ho
        · exact all operand ho
        · rw [List.mem_singleton.1 ho]
          exact hr
      · intro operand ho
        refine first operand ?_
        cases operands with
        | nil => simp at two
        | cons o os => simpa using ho
  case isFalse h =>
    refine .operation hop (by simp) ?_ ?_
    · intro operand ho
      rcases List.mem_cons.1 ho with rfl | ho
      · exact hl
      · rw [List.mem_singleton.1 ho]
        exact hr
    · rintro operand ⟨⟩ hkind
      refine h ⟨hkind, ?_⟩
      cases hl with
      | integer _ => subst hkind; simp [Kind.operator?] at hop
      | reference _ => subst hkind; simp [Kind.operator?] at hop
      | operation _ two _ _ => exact two

theorem yields_arithmeticOp (symbol : Symbol) (operators : List Arithmetic) :
    Yields (Reader.arithmeticOp symbol operators) fun kind => ∃ op, kind.operator? = some op :=
  .after fun op => .pure ⟨.arithmetic op, rfl⟩

theorem yields_conditionOp (symbol : Symbol) (operators : List Condition) :
    Yields (Reader.conditionOp symbol operators) fun kind => ∃ op, kind.operator? = some op :=
  .after fun op => .pure ⟨.condition op, rfl⟩

/-- A step yields an operator and an expression. -/
theorem Yields.step {op : Reader Kind} {operand : Reader Node}
    (hop : Yields op fun kind => ∃ op, kind.operator? = some op)
    (h : Yields operand IsExpression) :
    Yields (Reader.step op operand) fun next =>
      (∃ op, next.1.operator? = some op) ∧ IsExpression next.2 :=
  .bind hop fun _ hkind => .after fun _ => .bind h fun _ hrhs => .pure ⟨hkind, hrhs⟩

/-- A chain yields an expression, by induction on its steps. -/
theorem Yields.chain {op : Reader Kind} {operand : Reader Node}
    (hop : Yields op fun kind => ∃ op, kind.operator? = some op)
    (h : Yields operand IsExpression) : Yields (Reader.chain operand op) IsExpression := by
  refine bind h fun first hfirst => after fun _ => bind (series (hop.step h)) fun steps hsteps => ?_
  refine pure ?_
  induction steps generalizing first with
  | nil => exact hfirst
  | cons next steps ih =>
    obtain ⟨⟨⟨op, hnext⟩, hrhs⟩, hmore⟩ := List.forall_mem_cons.1 hsteps
    exact ih _ (hfirst.extend hnext hrhs) hmore

/-- Each level of expressions yields expressions, if what stands in parentheses is one. -/
theorem Yields.expressionLevels {inner : Reader Node} (h : Yields inner IsExpression) :
    Yields (Reader.disjunction inner) IsExpression := by
  have hatom : Yields (Reader.atom inner) IsExpression := by
    refine orElse (bind yields_integer fun _ hi => pure (.integer hi)) ?_
    refine orElse (bind (named _ yields_identifier) fun _ hi => pure (.reference hi)) ?_
    exact after fun _ => after fun _ => bind h fun _ hn => after fun _ => after fun _ => pure hn
  have hproduct : Yields (Reader.product inner) IsExpression :=
    named _ (chain (yields_arithmeticOp _ _) hatom)
  have hsum : Yields (Reader.sum inner) IsExpression :=
    named _ (chain (yields_arithmeticOp _ _) hproduct)
  have hcomparison : Yields (Reader.comparison inner) IsExpression := by
    refine named _ (bind hsum fun lhs hl => after fun _ => ?_)
    refine bind (optional ((yields_conditionOp _ _).step hsum)) fun next hnext => ?_
    cases next with
    | none => exact pure hl
    | some next =>
      obtain ⟨⟨op, hop⟩, hr⟩ := hnext next rfl
      exact pure (hl.extend hop hr)
  exact named _ (chain (yields_conditionOp _ _)
    (named _ (chain (yields_conditionOp _ _) hcomparison)))

/-- **Expressions of the grammar** are what is read as one, at each depth. -/
theorem yields_expression : Yields Reader.expression IsExpression := by
  refine Yields.nested fun depth => ?_
  induction depth with
  | zero => exact Yields.failure
  | succ depth ih => exact ih.expressionLevels

/-! ## Statements -/

/-- An instruction statement is a reuse or a construction. -/
theorem yields_instructionStatement (elements : List String) :
    Yields (Reader.instructionStatement elements) (IsStatement elements) := by
  refine .named _ (.bind yields_identifier fun name hname => .after fun _ => ?_)
  refine .bind (.optional (.parenthesized yields_expression)) fun arguments harguments => ?_
  refine .after fun _ => .after fun _ => .pure ?_
  have hall : ∀ argument ∈ arguments.getD [], IsExpression argument := by
    cases arguments with
    | none => simp
    | some arguments => exact harguments arguments rfl
  unfold Node.simpleStatement
  split
  case isTrue h =>
    rw [Bool.and_eq_true, List.contains_iff_mem] at h
    exact .reuse hname h.2
  case isFalse h =>
    refine .construct hname hall fun hnil hmem => h ?_
    rw [Bool.and_eq_true, List.contains_iff_mem, List.isEmpty_iff]
    exact ⟨hnil, hmem⟩

section Blocks

variable {elements : List String} {inner : Reader Node}
  (hinner : Yields inner (IsStatement elements))

include hinner

theorem Yields.statements (symbol : Symbol) :
    Yields (Reader.statements symbol inner) fun body =>
      ∀ statement ∈ body, IsStatement elements statement :=
  named _ (braced hinner)

/-- A clause of a switch has a label and statements. -/
theorem Yields.caseClause : Yields (Reader.caseClause inner) (IsCaseClause elements) := by
  have hlabel : Yields Reader.label fun label => IsIdentifier label ∨ label = "default" := by
    refine orElse (after fun _ => after fun _ => ?_) (named _ (after fun _ => pure (.inr rfl)))
    exact fun _ _ _ hread => .inl (yields_identifier _ _ _ hread)
  refine named _ (bind hlabel fun label hl => after fun _ => after fun _ => after fun _ => ?_)
  exact bind (hinner.statements _) fun body hbody => pure (.mk hl hbody)

theorem Yields.switchStatement : Yields (Reader.switchStatement inner) (IsStatement elements) := by
  refine named _ (after fun _ => after fun _ => after fun _ => after fun _ => ?_)
  refine bind yields_identifier fun name hname => after fun _ => after fun _ => after fun _ => ?_
  exact bind (braced hinner.caseClause) fun cases hcases => pure (.switch hname hcases)

theorem Yields.ifClause : Yields (Reader.ifClause inner) (IsIfClause elements) := by
  refine named _ (after fun _ => after fun _ => after fun _ => after fun _ => ?_)
  refine bind yields_expression fun condition hcondition => ?_
  refine after fun _ => after fun _ => after fun _ => ?_
  exact bind (hinner.statements _) fun body hbody => pure (.mk hcondition hbody)

theorem Yields.elseClause : Yields (Reader.elseClause inner) (IsElseClause elements) := by
  refine named _ (after fun _ => after fun _ => ?_)
  exact bind (hinner.statements _) fun body hbody => pure (.mk hbody)

theorem Yields.ifStatement : Yields (Reader.ifStatement inner) (IsStatement elements) := by
  refine named _ (bind hinner.ifClause fun first hfirst => after fun _ => ?_)
  refine bind (series (after fun _ => after fun _ => hinner.ifClause)) fun more hmore => ?_
  refine after fun _ => bind (optional hinner.elseClause) fun last hlast => ?_
  exact pure (.ifChain (by simp) (List.forall_mem_cons.2 ⟨hfirst, hmore⟩) hlast)

end Blocks

/-- **Statements of the grammar** are what is read as one, at each depth. -/
theorem yields_statement (elements : List String) :
    Yields (Reader.statement elements) (IsStatement elements) := by
  refine Yields.nested fun depth => ?_
  induction depth with
  | zero => exact Yields.failure
  | succ depth ih =>
    exact .orElse ih.switchStatement (.orElse ih.ifStatement (yields_instructionStatement elements))

/-! ## Rules and programs -/

theorem yields_instruction : Yields Reader.instruction IsInstruction :=
  .named _ (.bind yields_identifier fun _ h => .pure (.mk h))

theorem yields_instructionSet : Yields Reader.instructionSet IsInstructionSet := by
  refine .named _ (.after fun _ => .after fun _ => ?_)
  refine .bind (.commaSeparated yields_instruction) fun instructions h => ?_
  exact .after fun _ => .after fun _ => .pure (.mk h.1 h.2)

theorem yields_declaration : Yields Reader.declaration IsDeclaration := by
  refine .named _ (.after fun _ => .after fun _ => .bind yields_identifier fun name hname => ?_)
  refine .after fun _ => .after fun _ => .after fun _ => ?_
  refine .bind yields_instructionSet fun set hset => .after fun _ => .after fun _ => ?_
  exact .pure (.mk hname hset)

/-- The body of an element is a wildcard, or an instruction or a set with captures. -/
theorem yields_elementBody : Yields Reader.elementBody IsElementBody := by
  have hbody : Yields (Reader.instructionSet <|> Reader.instruction)
      fun body => IsInstructionSet body ∨ IsInstruction body :=
    .orElse (fun _ _ _ hread => .inl (yields_instructionSet _ _ _ hread))
      fun _ _ _ hread => .inr (yields_instruction _ _ _ hread)
  have hcapture : Yields Reader.capture IsCapture :=
    .named _ (.bind yields_identifier fun _ h => .pure (.mk h))
  refine .orElse (.after fun _ => .pure .wildcard) (.bind hbody fun body hb => .after fun _ => ?_)
  refine .bind (.optional (.parenthesized hcapture)) fun captures hcaptures => .pure ?_
  refine .asking hb ?_
  cases captures with
  | none => simp
  | some captures => exact hcaptures captures rfl

theorem yields_element : Yields (Reader.namedElement <|> Reader.unnamedElement) IsElement := by
  refine .orElse (.named _ (.bind yields_identifier fun name hname => ?_))
    (.named _ (.bind yields_elementBody fun _ hbody => .pure (.unnamed hbody)))
  refine .after fun _ => .after fun _ => .after fun _ => ?_
  exact .bind yields_elementBody fun _ hbody => .pure (.named hname hbody)

/-- A rule has a name, elements and statements; the names of its elements decide which are
reuses. -/
theorem yields_rule : Yields Reader.rule IsRule := by
  have hmatchSide : Yields Reader.matchSide fun elements =>
      elements ≠ [] ∧ ∀ element ∈ elements, IsElement element := by
    refine .named _ (.bind yields_element fun first hfirst => .after fun _ => ?_)
    refine .bind (.series yields_element) fun more hmore => ?_
    exact .pure ⟨by simp, List.forall_mem_cons.2 ⟨hfirst, hmore⟩⟩
  refine .named _ (.after fun _ => .after fun _ => .bind yields_identifier fun name hname => ?_)
  refine .after fun _ => .after fun _ => .after fun _ => ?_
  refine .bind hmatchSide fun elements helements => ?_
  refine .after fun _ => .after fun _ => .after fun _ => ?_
  refine .bind ((yields_statement _).statements _) fun body hbody => ?_
  exact .pure (.mk hname helements.1 helements.2 hbody)

/-- **A program of the grammar** is what is read from a whole text. -/
theorem yields_program : Yields Reader.program IsProgram := by
  refine .named _ (.after fun _ => .bind (.series yields_declaration) fun declarations hd => ?_)
  refine .after fun _ => .bind (.series yields_rule) fun rules hr => ?_
  exact .after fun _ => .after fun _ => .pure (.mk hd hr)

/-- **Every tree read from a text is a tree of the language.** -/
theorem isProgram_of_parse {source : String} {tree : Node} (h : parse source = .ok tree) :
    IsProgram tree := by
  unfold parse at h
  dsimp only at h
  split at h
  case h_1 value rest hread =>
    cases h
    exact yields_program _ _ _ hread
  case h_2 => simp at h

/-- The rules of a program are rules of the grammar. -/
theorem isRule_of_mem_rules {tree rule : Node} (h : IsProgram tree) (hrule : rule ∈ tree.rules) :
    IsRule rule := by
  obtain ⟨hd, hr⟩ := h
  obtain ⟨hmem, hkind⟩ := List.mem_filter.1 hrule
  rcases List.mem_append.1 hmem with hmem | hmem
  · obtain ⟨_, _⟩ := hd rule hmem
    simp at hkind
  · exact hr rule hmem

end Peephole

import Peephole.Grammar.SyntaxError
import Peephole.Proofs.Grammar.Pieces

/-!
# Proofs/Grammar/ReservedWords — where reserved words end

Every reader of the grammar has an account of the pieces it takes, put together as the reader is.
What has to be shown is what stands behind each reserved word, where it is read.  A punctuator ends
it; an identifier or an `if` does not, and no reader asks for a gap before them.
-/

namespace Peephole

open SourcePiece

namespace Account

variable {α : Type} {Follows : List SourcePiece → Prop} {reader : Reader α}

/-! ## Lexemes -/

/-- The account of fixed characters that are no reserved word. -/
def symbol (word : String) (h : word ∉ reservedWords := by decide) :
    Account (Reader.text word) Follows :=
  text word fun hmem => absurd hmem h

theorem leads_symbol {word : String} (h : word ∉ reservedWords := by decide) :
    (symbol word h : Account _ Follows).Leads (· = .fixed word) := leads_text _

/-- An identifier is one token. -/
def identifier : Account Reader.identifier Follows :=
  token .identifier fun _ _ _ h => ⟨_, (scanIdentifier_eq_some_iff.1 h).1.symm⟩

theorem leads_identifier :
    (identifier : Account _ Follows).Leads (∃ chars, · = .token .identifier chars) := leads_token _

/-- An integer literal is one token. -/
def integer : Account Reader.integer Follows :=
  token .integer fun _ _ _ h => ⟨_, (scanInteger_eq_some_iff.1 h).1.symm⟩

/-- The wildcard is one token. -/
def wildcard : Account Reader.wildcard Follows :=
  token .wildcard fun text _ rest h => by
    rw [scanWildcard_eq, Option.bind_eq_some_iff] at h
    obtain ⟨more, hmore, h⟩ := h
    obtain ⟨-, rfl⟩ := Prod.mk.inj (Option.some.inj (Option.ite_none_right_eq_some.1 h).2)
    exact ⟨_, (dropStart_eq_some_iff.1 hmore).symm⟩

/-- The end of the text is a token without characters. -/
def endOfInput : Account Reader.endOfInput Follows :=
  token .endOfInput fun text _ rest h => by
    cases text with
    | nil =>
      cases h
      exact List.suffix_rfl
    | cons => cases h

/-- An operator is one token. -/
def operator [DecidableEq α] (symbol : Symbol) (spelling : α → String) (operators : List α) :
    Account (Reader.operator symbol spelling operators) Follows :=
  token symbol fun text op rest h => by
    have hread : (Reader.operator symbol spelling operators).read text = some (op, rest) := h
    exact ⟨_, (Reader.of_read_operator hread).2.1.symm⟩

/-! ## Lists -/

/-- What may be left out has the pieces of what is there. -/
def optional (account : Account reader Anywhere) :
    Account (Reader.optional? reader) Anywhere :=
  (account.andThen fun value => .pure (some value)).orElse (.pure none)

/-- The items of a series, with gaps between them. -/
def series (item : Account reader Anywhere) : Account (Reader.series reader) Anywhere :=
  (item.andThen fun first =>
    (many (gap.andThen fun _ => item)).andThen fun more => .pure (first :: more)).orElse (.pure [])

/-- The items of a list, with gaps and commas between them. -/
def commaSeparated (item : Account reader Anywhere) :
    Account (Reader.commaSeparated reader) Anywhere :=
  item.andThen fun first => gap.andThen fun _ =>
    (series ((symbol ",").andThen fun _ => gap.andThen fun _ => item)).andThen
      fun more => .pure (first :: more)

/-- A list in parentheses, which may be empty. -/
def parenthesized (item : Account reader Anywhere) :
    Account (Reader.parenthesized reader) Anywhere :=
  (symbol "(").andThen fun _ => gap.andThen fun _ =>
    (optional (commaSeparated item)).andThen fun items => gap.andThen fun _ =>
      (symbol ")").andThen fun _ => .pure (items.getD [])

/-- A series in braces. -/
def braced (item : Account reader Anywhere) : Account (Reader.braced reader) Anywhere :=
  (symbol "\x7b").andThen fun _ => gap.andThen fun _ =>
    (series item).andThen fun items => gap.andThen fun _ =>
      (symbol "\x7d").andThen fun _ => .pure items

/-! ## Expressions -/

/-- An arithmetic operator is one token. -/
def arithmeticOp (symbol : Symbol) (operators : List Arithmetic) :
    Account (Reader.arithmeticOp symbol operators) Anywhere :=
  (operator symbol Arithmetic.token operators).andThen fun _ => .pure _

/-- A condition operator is one token. -/
def conditionOp (symbol : Symbol) (operators : List Condition) :
    Account (Reader.conditionOp symbol operators) Anywhere :=
  (operator symbol Condition.token operators).andThen fun _ => .pure _

section Levels

variable {operand inner : Reader Node} {op : Reader Kind}

/-- An operator, a gap and an operand. -/
def step (opAccount : Account op Anywhere) (account : Account operand Anywhere) :
    Account (Reader.step op operand) Anywhere :=
  opAccount.andThen fun kind => gap.andThen fun _ => account.andThen fun rhs => .pure (kind, rhs)

/-- Operands with operators between them. -/
def chain (account : Account operand Anywhere) (opAccount : Account op Anywhere) :
    Account (Reader.chain operand op) Anywhere :=
  account.andThen fun _ => gap.andThen fun _ =>
    (series (step opAccount account)).andThen fun _ => .pure _

/-- A literal, a variable, or an expression in parentheses. -/
def atom (account : Account inner Anywhere) : Account (Reader.atom inner) Anywhere :=
  (integer.andThen fun _ => .pure _).orElse <|
    ((named .variable identifier).andThen fun _ => .pure _).orElse <|
      (symbol "(").andThen fun _ => gap.andThen fun _ => account.andThen fun node =>
        gap.andThen fun _ => (symbol ")").andThen fun _ => .pure node

/-- Products with `+` and `-` between them, products included. -/
def sum (account : Account inner Anywhere) : Account (Reader.sum inner) Anywhere :=
  named .sum (chain (named .product (chain (atom account) (arithmeticOp ..))) (arithmeticOp ..))

/-- A sum, or two with a comparison between them. -/
def comparison (account : Account inner Anywhere) : Account (Reader.comparison inner) Anywhere :=
  named .comparison <| (sum account).andThen fun lhs => gap.andThen fun _ =>
    (optional (step (conditionOp ..) (sum account))).andThen fun next =>
      match next with
      | none => .pure lhs
      | some (kind, rhs) => .pure (lhs.extend kind rhs)

/-- Conjunctions with `||` between them, conjunctions included. -/
def disjunction (account : Account inner Anywhere) : Account (Reader.disjunction inner) Anywhere :=
  named .disjunction (chain (named .conjunction (chain (comparison account) (conditionOp ..)))
    (conditionOp ..))

end Levels

/-- Expressions of bounded nesting; none has the bound zero. -/
def expressionWithin : ∀ depth, Account (Reader.expressionWithin depth) Anywhere
  | 0 => .failure
  | depth + 1 => disjunction (expressionWithin depth)

/-- Expressions, nested as deep as the text allows. -/
def expression : Account Reader.expression Anywhere := nested expressionWithin

/-! ## Statements -/

/-- The account of a reserved word and what is read behind it. -/
def reserved (word : String) (next : Account reader Follows)
    (hnext : ∀ text value rest, reader.read text = some (value, rest) →
      ∀ back, Stands word (next.pieces text ++ back)) :
    Account (Reader.text word >>= fun _ => reader) Follows :=
  (text word fun _ _ h => h : Account (Reader.text word) (Stands word)).bind (fun _ => next)
    fun _ _ _ _ h back _ => hnext _ _ _ h back

theorem leads_reserved (word : String) (next : Account reader Follows)
    (hnext : ∀ text value rest, reader.read text = some (value, rest) →
      ∀ back, Stands word (next.pieces text ++ back)) :
    (reserved word next hnext).Leads (· = .fixed word) := (leads_text _).bind

/-- An instruction statement: a word, arguments if any, and `;`. -/
def instructionStatement (elements : List String) :
    Account (Reader.instructionStatement elements) Anywhere :=
  named .instructionStatement <| identifier.andThen fun _ => gap.andThen fun _ =>
    (optional (parenthesized expression)).andThen fun _ => gap.andThen fun _ =>
      (symbol ";").andThen fun _ => .pure _

/-- Nothing is read behind `default`, so a label is one only where a word ends. -/
def label : Account Reader.label EndsWord :=
  (reserved "case" (gap.andThen fun _ => identifier)
    (stands_of_identifier (by decide) leads_identifier)).orElse <|
  named .defaultLabel <|
    (text "default" fun _ _ h => .whole h : Account (Reader.text "default") EndsWord).bind
      (fun _ => .pure _) fun _ _ _ _ _ _ h => h

section Blocks

variable {inner : Reader Node} (account : Account inner Anywhere)

/-- Statements in braces. -/
def block : Account (Reader.statements .block inner) Anywhere := named .block (braced account)

theorem leads_block : (block account).Leads (· = .fixed "\x7b") :=
  (Leads.andThen leads_symbol).named .block

/-- A label, `:` and a block.  Behind `case` the label may follow at once. -/
def caseClause : Account (Reader.caseClause inner) Anywhere :=
  named .caseClause <| label.bind
    (fun _ => gap.andThen fun _ => (symbol ":").andThen fun _ => gap.andThen fun _ =>
      (block account).andThen fun _ => .pure _)
    fun _ _ _ _ h back _ => endsWord_of_symbol (.andThen leads_symbol) rfl _ _ _ h back

/-- The word `switch`, a name in parentheses and clauses in braces; the word ends before `(`. -/
def switchStatement : Account (Reader.switchStatement inner) Anywhere :=
  named .switchStatement <| reserved "switch"
    (gap.andThen fun _ => (symbol "(").andThen fun _ => gap.andThen fun _ =>
      identifier.andThen fun _ => gap.andThen fun _ => (symbol ")").andThen fun _ =>
        gap.andThen fun _ => (braced (caseClause account)).andThen fun _ => .pure _)
    (stands_of_symbol (.andThen leads_symbol) rfl)

/-- The word `if`, a condition in parentheses and a block; the word ends before `(`. -/
def ifClause : Account (Reader.ifClause inner) Anywhere :=
  named .ifClause <| reserved "if"
    (gap.andThen fun _ => (symbol "(").andThen fun _ => gap.andThen fun _ =>
      expression.andThen fun _ => gap.andThen fun _ => (symbol ")").andThen fun _ =>
        gap.andThen fun _ => (block account).andThen fun _ => .pure _)
    (stands_of_symbol (.andThen leads_symbol) rfl)

theorem leads_ifClause : (ifClause account).Leads (· = .fixed "if") :=
  Leads.named (leads_reserved _ _ _) .ifClause

/-- The word `else` and a block; the word ends before the brace. -/
def elseClause : Account (Reader.elseClause inner) Anywhere :=
  named .elseClause <| reserved "else"
    (gap.andThen fun _ => (block account).andThen fun _ => .pure _)
    (stands_of_symbol (leads_block account).andThen rfl)

/-- An if clause, further ones behind `else`, and an else clause if any. -/
def ifStatement : Account (Reader.ifStatement inner) Anywhere :=
  named .ifStatement <| (ifClause account).andThen fun _ => gap.andThen fun _ =>
    (series (reserved "else" (gap.andThen fun _ => ifClause account)
      (stands_of_if (leads_ifClause account)))).andThen fun _ => gap.andThen fun _ =>
        (optional (elseClause account)).andThen fun _ => .pure _

end Blocks

/-- Statements of bounded nesting; none has the bound zero. -/
def statementWithin (elements : List String) :
    ∀ depth, Account (Reader.statementWithin elements depth) Anywhere
  | 0 => .failure
  | depth + 1 =>
    (switchStatement (statementWithin elements depth)).orElse <|
      (ifStatement (statementWithin elements depth)).orElse (instructionStatement elements)

/-- Statements, nested as deep as the text allows. -/
def statement (elements : List String) : Account (Reader.statement elements) Anywhere :=
  nested (statementWithin elements)

/-! ## Rules and programs -/

/-- The name of an instruction is one token. -/
def instruction : Account Reader.instruction Anywhere :=
  named .instruction <| identifier.andThen fun _ => .pure _

/-- Instructions with commas between them, in braces. -/
def instructionSet : Account Reader.instructionSet Anywhere :=
  named .instructionSet <| (symbol "\x7b").andThen fun _ => gap.andThen fun _ =>
    (commaSeparated instruction).andThen fun _ => gap.andThen fun _ =>
      (symbol "\x7d").andThen fun _ => .pure _

/-- The word `set`, a name, `=`, a set and `;`.  The name may follow the word at once. -/
def declaration : Account Reader.declaration Anywhere :=
  named .declaration <| reserved "set"
    (gap.andThen fun _ => identifier.andThen fun _ => gap.andThen fun _ =>
      (symbol "=").andThen fun _ => gap.andThen fun _ =>
        instructionSet.andThen fun _ => gap.andThen fun _ =>
          (symbol ";").andThen fun _ => .pure _)
    (stands_of_identifier (by decide) leads_identifier.andThen)

/-- A wildcard, or an instruction or a set with captures if any. -/
def elementBody : Account Reader.elementBody Anywhere :=
  (wildcard.andThen fun _ => .pure _).orElse <|
    (instructionSet.orElse instruction).andThen fun _ => gap.andThen fun _ =>
      (optional (parenthesized (named .capture <| identifier.andThen fun _ => .pure _))).andThen
        fun _ => .pure _

/-- An element of a match side, with or without a name. -/
def element : Account (Reader.namedElement <|> Reader.unnamedElement) Anywhere :=
  (named .namedInstruction <| identifier.andThen fun _ => gap.andThen fun _ =>
    (symbol ":").andThen fun _ => gap.andThen fun _ =>
      elementBody.andThen fun _ => .pure _).orElse <|
  named .unnamedInstruction <| elementBody.andThen fun _ => .pure _

/-- One element or more, with gaps between them. -/
def matchSide : Account Reader.matchSide Anywhere :=
  named .matchSide <| element.andThen fun _ => gap.andThen fun _ =>
    (series element).andThen fun _ => .pure _

/-- The word `pattern`, a name, a match side and a replacement.  The name may follow the word at
once. -/
def rule : Account Reader.rule Anywhere :=
  named .rule <| reserved "pattern"
    (gap.andThen fun _ => identifier.andThen fun _ => gap.andThen fun _ =>
      (symbol ":").andThen fun _ => gap.andThen fun _ =>
        matchSide.andThen fun _ => gap.andThen fun _ =>
          (symbol "-->").andThen fun _ => gap.andThen fun _ =>
            (named .replacement (braced (statement _))).andThen fun _ => .pure _)
    (stands_of_identifier (by decide) leads_identifier.andThen)

/-- A whole file: declarations, then rules, then the end of the text. -/
def program : Account Reader.program Anywhere :=
  named .program <| gap.andThen fun _ => (series declaration).andThen fun _ =>
    gap.andThen fun _ => (series rule).andThen fun _ => gap.andThen fun _ =>
      endOfInput.andThen fun _ => .pure _

end Account

/-! ## Whole files -/

/-- A reader that leaves nothing of a text. -/
def Exhausts {α : Type} (reader : Reader α) : Prop :=
  ∀ text value rest, reader.read text = some (value, rest) → rest = []

/-- What ends in a reader that leaves nothing leaves nothing. -/
theorem Exhausts.after {α β : Type} {reader : Reader α} {readers : α → Reader β}
    (h : ∀ value, Exhausts (readers value)) : Exhausts (reader >>= readers) := by
  intro text result rest hread
  rw [Reader.read_bind, Option.bind_eq_some_iff] at hread
  obtain ⟨⟨value, mid⟩, -, hnext⟩ := hread
  exact h value mid result rest hnext

theorem Exhausts.named {α : Type} {reader : Reader α} (h : Exhausts reader) (symbol : Symbol) :
    Exhausts (Reader.named symbol reader) := h

/-- A program is read to the end of the text. -/
theorem exhausts_program : Exhausts Reader.program := by
  refine .named (.after fun _ => .after fun declarations => .after fun _ => .after fun rules =>
    .after fun _ => ?_) .program
  intro text tree rest hread
  cases text with
  | nil =>
    cases hread
    rfl
  | cons => cases hread

/-- The reserved words that were taken out of longer words. -/
def splitWords : List SourcePiece → List String
  | [] => []
  | .fixed word :: back =>
    if word ∈ reservedWords ∧ (spell back).head?.any isWordChar = true then word :: splitWords back
    else splitWords back
  | _ :: back => splitWords back

/-- Only `set`, `pattern`, `case` and `else` are taken out of longer words. -/
theorem mem_of_mem_splitWords {pieces : List SourcePiece} (h : Apart pieces) {word : String}
    (hword : word ∈ splitWords pieces) : word ∈ ["set", "pattern", "case", "else"] := by
  induction pieces with
  | nil => cases hword
  | cons piece back ih =>
    cases piece with
    | token | gap => exact ih h hword
    | fixed first =>
      rw [splitWords] at hword
      split at hword
      case isFalse => exact ih h.2 hword
      case isTrue hsplit =>
        rw [List.mem_cons] at hword
        obtain rfl | hword := hword
        case inr => exact ih h.2 hword
        cases h.1 hsplit.1 with
        | name hname => exact List.mem_append_left ["else"] hname
        | elseIf => decide
        | whole hends =>
          obtain ⟨c, hc, hchar⟩ := (Option.any_eq_true _ _).1 hsplit.2
          rw [hends c hc] at hchar
          cases hchar

/-- **Where reserved words end.**  The pieces of a pattern file are all of its text.  Each reserved
word among them is a whole word, unless an identifier stands at once behind `set`, `pattern` or
`case`, or an `if` at once behind `else`; so `switch`, `default` and `if` always are. -/
theorem reserved_words_end {source : String} {tree : Node} (h : parse source = .ok tree) :
    spell (Account.program.pieces source.toList) = source.toList ∧
    (∀ front word back, Account.program.pieces source.toList = front ++ .fixed word :: back →
      word ∈ reservedWords → Stands word back) ∧
    ∀ word ∈ splitWords (Account.program.pieces source.toList),
      word ∈ ["set", "pattern", "case", "else"] := by
  obtain ⟨rest, hread⟩ : ∃ rest, Reader.program.read source.toList = some (tree, rest) := by
    cases hread : Reader.program.read source.toList with
    | none =>
      obtain ⟨error, herror⟩ := parse_of_refused hread
      rw [h] at herror
      cases herror
    | some result =>
      rw [parse_of_taken hread] at h
      exact ⟨result.2, by rw [← Except.ok.inj h]⟩
  obtain rfl := exhausts_program _ _ _ hread
  have hspells := Account.program.spells hread
  have happart := Account.program.apart hread [] trivial trivial
  rw [List.append_nil] at hspells happart
  refine ⟨hspells.symm, fun front word back hpieces hword => ?_, fun word hword => ?_⟩
  · rw [hpieces] at happart
    exact happart.stands hword
  · exact mem_of_mem_splitWords happart hword

namespace Split

/-- Every word that can be taken out of a longer one is. -/
def source : String :=
  "setx = \x7b a \x7d; patternp: y: x --> " ++
    "\x7b switch (y) \x7b casea: \x7b \x7d \x7d if (1 < 2) \x7b \x7d elseif (1 < 2) \x7b \x7d \x7d"

theorem exists_parse : ∃ tree, parse source = .ok tree := by
  have hsome : (parse source).toOption.isSome = true := by decide +kernel
  cases htree : parse source with
  | ok tree => exact ⟨tree, rfl⟩
  | error error =>
    rw [htree] at hsome
    cases hsome

/-- The pieces of the source behind the first two. -/
def back : List SourcePiece := (Account.program.pieces source.toList).drop 2

theorem pieces_source :
    Account.program.pieces source.toList = [.gap []] ++ .fixed "set" :: back := by
  decide +kernel

end Split

/-- The word `set` stands right before the name that goes on with it. -/
theorem reserved_words_end_set :
    Stands "set" Split.back ∧ (spell Split.back).head? = some 'x' := by
  obtain ⟨tree, hparse⟩ := Split.exists_parse
  obtain ⟨-, hstands, -⟩ := reserved_words_end hparse
  exact ⟨hstands _ _ _ Split.pieces_source (by decide), by decide +kernel⟩

/-- **Reserved words are not always whole words.** -/
theorem reserved_words_split : (∃ tree, parse Split.source = .ok tree) ∧
    splitWords (Account.program.pieces Split.source.toList) = ["set", "pattern", "case", "else"] :=
  ⟨Split.exists_parse, by decide +kernel⟩

end Peephole

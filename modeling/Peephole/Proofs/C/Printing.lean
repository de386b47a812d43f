import Mathlib.Data.List.Forall2
import Peephole.Code.Body
import Peephole.Proofs.C.Lexing
import Peephole.Proofs.C.Parsing
import Peephole.Proofs.Names

/-!
# Proofs/C/Printing — expressions and lines, read back as C

An expression of a matcher is data that is written out as text.  `Expr.toTerm` is the C expression
it is meant to be, and `Expr.spells_text` says that C reads it as just that, precedence included.
It takes names that are words and integers that are digits (`Expr.Readable`), no more.  The lines of
a matcher, each with its indentation, are read in the same way.
-/

namespace Peephole

open C

/-! ## Pieces of text

`SpellsOperand`, `SpellsTerm` and so on put the tokens of a text and their reading together, so that
the tokens need not be named.  A line ends in a newline, so whatever follows it, its tokens are its
own. -/

/-- A text that is an operand. -/
def SpellsOperand (text : List Char) (value : Term) : Prop :=
  ∃ tokens, Spells text tokens ∧ ReadsOperand tokens value

/-- A text that is an expression. -/
def SpellsTerm (text : List Char) (value : Term) : Prop :=
  ∃ tokens, Spells text tokens ∧ ReadsTerm tokens value

/-- A line that is a statement. -/
def SpellsStmt (text : List Char) (stmt : Stmt) : Prop :=
  ∃ tokens, (∀ rest, lex (text ++ rest) = prepend tokens (lex rest)) ∧ ReadsStmt tokens stmt

/-- Lines that are statements. -/
def SpellsStmts (text : List Char) (stmts : List Stmt) : Prop :=
  ∃ tokens, (∀ rest, lex (text ++ rest) = prepend tokens (lex rest)) ∧ ReadsStmts tokens stmts

theorem SpellsOperand.term {text : List Char} {value : Term} (h : SpellsOperand text value) :
    SpellsTerm text value := by
  obtain ⟨tokens, hs, hr⟩ := h
  exact ⟨tokens, hs, hr.term⟩

theorem spellsStmts_nil : SpellsStmts [] [] := ⟨[], by simp, readsStmts_nil⟩

/-- The text of a statement goes in front of the text of others. -/
theorem SpellsStmt.cons {text more : List Char} {stmt : Stmt} {stmts : List Stmt}
    (h : SpellsStmt text stmt) (hmore : SpellsStmts more stmts) :
    SpellsStmts (text ++ more) (stmt :: stmts) := by
  obtain ⟨tokens, hs, hr⟩ := h
  obtain ⟨further, hms, hmr⟩ := hmore
  refine ⟨tokens ++ further, fun rest => ?_, hmr.cons hr⟩
  rw [List.append_assoc, hs, hms, prepend_prepend]

/-- **A text that is statements reads as them.** -/
theorem SpellsStmts.read {text : String} {stmts : List Stmt} (h : SpellsStmts text.toList stmts) :
    C.read text = some stmts := by
  obtain ⟨tokens, hs, hr⟩ := h
  have hlex : lex text.toList = some tokens := by
    simpa [show lex [] = some [] by rw [lex]] using hs []
  simp [C.read, hlex, hr.all]

/-- Texts behind separators, spelled one after the other. -/
theorem spells_behind {separator : String} {punct : Punct} {Reads : List Token → Term → Prop}
    (hsep : ∀ text, lex (separator.toList ++ text) = prepend [.punct punct] (lex text))
    (hends : ∀ text, Ends (separator.toList ++ text)) {texts : List String} {values : List Term}
    (h : List.Forall₂ (fun text value => ∃ tokens, Spells text.toList tokens ∧ Reads tokens value)
      texts values) :
    ∃ pairs : List (List Token × Term), pairs.map Prod.snd = values ∧
      (∀ pair ∈ pairs, Reads pair.1 pair.2) ∧
      Spells (texts.flatMap fun text => separator.toList ++ text.toList) (behind punct pairs) := by
  induction h with
  | nil => exact ⟨[], rfl, by simp, fun rest _ => by simp⟩
  | @cons text value texts values hfirst _ ih =>
    obtain ⟨tokens, hs, hr⟩ := hfirst
    obtain ⟨pairs, hvalues, hreads, hspells⟩ := ih
    refine ⟨(tokens, value) :: pairs, by simp [hvalues], List.forall_mem_cons.2 ⟨hr, hreads⟩, ?_⟩
    intro rest hrest
    have hnext : Ends ((texts.flatMap fun text => separator.toList ++ text.toList) ++ rest) := by
      cases texts with
      | nil => simpa using hrest
      | cons text texts =>
        rw [List.flatMap_cons, List.append_assoc, List.append_assoc]
        exact hends _
    simp only [List.flatMap_cons, List.append_assoc, behind_cons]
    rw [hsep, hs _ hnext, hspells rest hrest]
    simp

/-- Texts are joined with the separator in front of each but the first. -/
theorem toList_intercalate_cons (separator first : String) (texts : List String) :
    (separator.intercalate (first :: texts)).toList
      = first.toList ++ texts.flatMap fun text => separator.toList ++ text.toList := by
  induction texts generalizing first with
  | nil => simp
  | cons text texts ih =>
    rw [String.intercalate_cons_cons, String.toList_append, String.toList_append, ih]
    simp

/-- **Separated texts up to a closing parenthesis.** -/
theorem lex_intercalate {separator : String} {punct : Punct} {Reads : List Token → Term → Prop}
    (hsep : ∀ text, lex (separator.toList ++ text) = prepend [.punct punct] (lex text))
    (hends : ∀ text, Ends (separator.toList ++ text)) {first : String} {value : Term}
    {texts : List String} {values : List Term}
    (hfirst : ∃ tokens, Spells first.toList tokens ∧ Reads tokens value)
    (h : List.Forall₂ (fun text value => ∃ tokens, Spells text.toList tokens ∧ Reads tokens value)
      texts values) :
    ∃ (tokens : List Token) (pairs : List (List Token × Term)), pairs.map Prod.snd = values ∧
      Reads tokens value ∧ (∀ pair ∈ pairs, Reads pair.1 pair.2) ∧
      ∀ rest, lex ((separator.intercalate (first :: texts)).toList ++ ')' :: rest)
        = prepend (tokens ++ behind punct pairs ++ [.punct .rparen]) (lex rest) := by
  obtain ⟨tokens, hs, hr⟩ := hfirst
  obtain ⟨pairs, hvalues, hreads, hspells⟩ := spells_behind hsep hends h
  refine ⟨tokens, pairs, hvalues, hr, hreads, fun rest => ?_⟩
  have hclose : Ends (')' :: rest) := ends_cons.2 (by decide)
  have hnext :
      Ends ((texts.flatMap fun text => separator.toList ++ text.toList) ++ ')' :: rest) := by
    cases texts with
    | nil => exact hclose
    | cons text texts =>
      rw [List.flatMap_cons, List.append_assoc, List.append_assoc]
      exact hends _
  rw [toList_intercalate_cons, List.append_assoc, hs _ hnext, hspells _ hclose, lex_rparen]
  simp

/-! ## Names -/

/-- A text made of the characters of words. -/
abbrev WordChars (text : String) : Prop := ∀ c ∈ text.toList, isWordChar c = true

/-- A word that is a name. -/
structure IsName (text : String) : Prop extends IsWord text where
  token : Token.ofWord text.toList = .name text

theorem IsName.spells {text : String} (h : IsName text) : Spells text.toList [.name text] := by
  have hs := h.toIsWord.spells
  rwa [h.token] at hs

theorem IsName.operand {text : String} (h : IsName text) : SpellsOperand text.toList (.name text) :=
  ⟨_, h.spells, readsOperand_name text⟩

/-- A word that starts with no digit and holds a character that no keyword has is a name, whatever
goes on after it. -/
theorem isName_append {start : String} {d : Char} (c : Char) (hstart : IsWord start)
    (hc : c ∈ start.toList) (hk : ∀ entry ∈ keywords, c ∉ entry.1.toList)
    (hd : start.toList.head? = some d) (hdigit : d.isDigit = false) {text : String}
    (h : WordChars text) : IsName (start ++ text) where
  toIsWord := hstart.append h
  token := ofWord_eq_name (by simp [hc]) hk (by simp [hd]) hdigit

/-- The local of a capture is a name, since no keyword has an underscore. -/
theorem isName_argumentLocal {name : String} (h : WordChars name) : IsName (argumentLocal name) :=
  isName_append '_' (isWord_of_all (by decide) (by decide)) (by decide) (by decide) rfl
    (by decide) h

/-- The cursor of an element is a name, since no keyword has an underscore. -/
theorem isName_cursorLocal {name : String} (h : WordChars name) : IsName (cursorLocal name) :=
  isName_append '_' (isWord_of_all (by decide) (by decide)) (by decide) (by decide) rfl
    (by decide) h

theorem forall_wordChars_of_all {texts : List String}
    (h : (texts.all fun text => text.toList.all isWordChar) = true) :
    ∀ text ∈ texts, WordChars text :=
  fun text hmem => List.all_eq_true.1 (List.all_eq_true.1 h text hmem)

theorem wordChars_toString (n : Nat) : WordChars (toString n) := fun c hc =>
  isWordChar_of_isDigit ((isDigits_toString n).all c hc)

theorem isName_nodeLocal (n : Nat) : IsName (nodeLocal n) :=
  isName_append '_' (isWord_of_all (by decide) (by decide)) (by decide) (by decide) rfl
    (by decide) (wordChars_toString n)

theorem isName_makeCode {opcode : String} (h : WordChars opcode) : IsName ("makeCODE" ++ opcode) :=
  isName_append 'm' (isWord_of_all (by decide) (by decide)) (by decide) (by decide) rfl
    (by decide) h

theorem isName_isCode {opcode : String} (h : WordChars opcode) : IsName ("is_" ++ opcode) :=
  isName_append '_' (isWord_of_all (by decide) (by decide)) (by decide) (by decide) rfl
    (by decide) h

/-- The names that are the same in every matcher. -/
theorem isName_fixed {text : String} (h : text ∈ ["NULL", "c", "next", "replace", "copyCODE"]) :
    IsName text := by
  simp only [List.mem_cons, List.not_mem_nil, or_false] at h
  rcases h with rfl | rfl | rfl | rfl | rfl <;>
    exact ⟨isWord_of_all (by decide) (by decide), by decide⟩

/-! ## Expressions -/

/-- The C expression of an integer literal. -/
def literalTerm (text : String) : Term :=
  match text.toList with
  | '-' :: digits => .unary .minus (.number (String.ofList digits))
  | _ => .number text

/-- Operands under one operator, from the left. -/
def foldTerm (op : Operator) : List Term → Term
  | [] => .name ""
  | first :: rest => rest.foldl (.binary op) first

namespace Expr

mutual

/-- The C expression that an expression is written as. -/
def toTerm : Expr → Term
  | literal text => literalTerm text
  | argument name => .name (argumentLocal name)
  | chain op operands => foldTerm op (toTerms operands)

/-- The C expressions of expressions. -/
def toTerms : List Expr → List Term
  | [] => []
  | expr :: exprs => toTerm expr :: toTerms exprs

end

mutual

/-- Names are made of the characters of words, literals are integers, and chains are not empty. -/
def Readable : Expr → Prop
  | literal text => IsInteger text
  | argument name => WordChars name
  | chain _ operands => operands ≠ [] ∧ ReadableAll operands

/-- All of some expressions read back. -/
def ReadableAll : List Expr → Prop
  | [] => True
  | expr :: exprs => Readable expr ∧ ReadableAll exprs

end

end Expr

/-- Digits are one number. -/
theorem IsDigits.spells {digits : List Char} (h : IsDigits digits) :
    Spells digits [.number (String.ofList digits)] := by
  obtain ⟨c, rest, rfl⟩ := List.exists_cons_of_ne_nil h.nonempty
  have hdigit : c.isDigit = true := h.all c (by simp)
  have hnone : keywords.lookup (String.ofList (c :: rest)) = none := by
    rw [List.lookup_eq_none_iff]
    intro entry he
    refine bne_iff_ne.2 fun heq => ?_
    have hfirst : (entry.1.toList.head?.all fun d => !d.isDigit) = true := by
      clear heq
      revert entry
      decide
    rw [← heq, String.toList_ofList] at hfirst
    simp [hdigit] at hfirst
  have htoken : Token.ofWord (c :: rest) = .number (String.ofList (c :: rest)) := by
    rw [Token.ofWord, hnone]
    simp [hdigit]
  rw [← htoken]
  intro more hmore
  exact lex_word h.nonempty (fun d hd => isWordChar_of_isDigit (h.all d hd)) hmore

theorem IsDigits.operand {digits : List Char} (h : IsDigits digits) :
    SpellsOperand digits (.number (String.ofList digits)) :=
  ⟨_, h.spells, readsOperand_number _⟩

/-- A literal without a sign is a number. -/
theorem literalTerm_digits {digits : List Char} (h : IsDigits digits) :
    literalTerm (String.ofList digits) = .number (String.ofList digits) := by
  unfold literalTerm
  split
  case h_1 rest hminus =>
    rw [String.toList_ofList] at hminus
    subst hminus
    exact absurd (h.all '-' (by simp)) (by decide)
  case h_2 => rfl

theorem literalTerm_negative (digits : List Char) :
    literalTerm (String.ofList ('-' :: digits))
      = .unary .minus (.number (String.ofList digits)) := by
  simp [literalTerm]

/-- An integer is its digits, behind a minus sign or not. -/
theorem IsInteger.operand {text : String} (h : IsInteger text) :
    SpellsOperand text.toList (literalTerm text) := by
  cases h with
  | plain h =>
    rw [literalTerm_digits h, String.toList_ofList]
    exact h.operand
  | negative h =>
    obtain ⟨tokens, hs, hr⟩ := h.operand
    rw [literalTerm_negative, String.toList_ofList]
    refine ⟨.punct (.operator (.arithmetic .sub)) :: tokens, ?_, hr.unary (by simp) fun _ => rfl⟩
    intro rest hrest
    obtain ⟨c, digits, rfl⟩ := List.exists_cons_of_ne_nil h.nonempty
    have hword : isWordChar c = true := isWordChar_of_isDigit (h.all c (by simp))
    rw [List.cons_append, List.cons_append, lex_single (by decide) (by decide) rfl (.inr hword),
      ← List.cons_append, hs rest hrest]
    simp

/-- Operands under one operator, in parentheses. -/
theorem spells_chain (op : Operator) {texts : List String} {values : List Term}
    (h : List.Forall₂ (fun text value => SpellsOperand text.toList value) texts values)
    (hne : texts ≠ []) :
    SpellsOperand ("(" ++ (" " ++ op.token ++ " ").intercalate texts ++ ")").toList
      (foldTerm op values) := by
  have hsep : ∀ text, lex ((" " ++ op.token ++ " ").toList ++ text)
      = prepend [.punct (.operator op)] (lex text) := by
    intro text
    have hop := lex_operator op text
    simpa using hop
  have hends : ∀ text, Ends ((" " ++ op.token ++ " ").toList ++ text) := fun text => by
    simp [show isWordChar ' ' = false by decide]
  cases h with
  | nil => exact absurd rfl hne
  | @cons first value texts values hfirst hmore =>
    obtain ⟨tokens, pairs, rfl, hr, hreads, hlex⟩ := lex_intercalate hsep hends hfirst hmore
    have hfold : foldTerm op (value :: pairs.map Prod.snd) = foldBinary op value pairs := by
      simp [foldTerm, foldBinary, List.foldl_map]
    rw [hfold]
    refine ⟨_, fun rest _ => ?_, (hr.chained op pairs hreads).parenthesized⟩
    have hopen := lex_lparen
      (((" " ++ op.token ++ " ").intercalate (first :: texts)).toList ++ ')' :: rest)
    rw [hlex, prepend_prepend] at hopen
    simpa using hopen

mutual

/-- **An expression reads as the C expression it is meant to be.** -/
theorem Expr.spells_text : ∀ expr : Expr, expr.Readable →
    SpellsOperand expr.text.toList expr.toTerm
  | .literal text, h => by
    rw [Expr.Readable] at h
    rw [Expr.text, Expr.toTerm]
    exact h.operand
  | .argument name, h => by
    rw [Expr.Readable] at h
    rw [Expr.text, Expr.toTerm]
    exact (isName_argumentLocal h).operand
  | .chain op operands, h => by
    rw [Expr.Readable] at h
    have hall := Expr.spells_texts operands h.2
    rw [Expr.text, Expr.toTerm]
    refine spells_chain op hall ?_
    cases operands with
    | nil => exact absurd rfl h.1
    | cons operand operands => simp [Expr.texts]

/-- Each of some expressions reads back, in a list of arguments. -/
theorem Expr.spells_texts : ∀ exprs : List Expr, Expr.ReadableAll exprs →
    List.Forall₂ (fun text value => SpellsOperand text.toList value) (Expr.texts exprs)
      (Expr.toTerms exprs)
  | [], _ => by
    rw [Expr.texts, Expr.toTerms]
    exact .nil
  | expr :: exprs, h => by
    rw [Expr.ReadableAll] at h
    rw [Expr.texts, Expr.toTerms]
    exact .cons (Expr.spells_text expr h.1) (Expr.spells_texts exprs h.2)

end

/-- **A call reads as the function and its arguments.** -/
theorem spells_call {function : String} (hf : IsName function) {texts : List String}
    {values : List Term}
    (h : List.Forall₂ (fun text value => SpellsTerm text.toList value) texts values)
    (hne : texts ≠ []) :
    SpellsOperand (function ++ "(" ++ ", ".intercalate texts ++ ")").toList
      (.call function values) := by
  have hsep : ∀ text, lex (", ".toList ++ text) = prepend [.punct .comma] (lex text) := by
    intro text
    simp
  have hends : ∀ text, Ends (", ".toList ++ text) := fun text => by
    simp [show isWordChar ',' = false by decide]
  cases h with
  | nil => exact absurd rfl hne
  | @cons first value texts values hfirst hmore =>
    obtain ⟨tokens, pairs, rfl, hr, hreads, hlex⟩ := lex_intercalate hsep hends hfirst hmore
    have hcall := readsOperand_call function hr pairs hreads
    refine ⟨_, fun rest _ => ?_, hcall⟩
    have hname := hf.spells ('(' :: ((", ".intercalate (first :: texts)).toList ++ ')' :: rest))
      (ends_cons.2 (by decide))
    rw [lex_lparen, hlex, prepend_prepend, prepend_prepend] at hname
    simpa using hname

/-! ## Lines -/

@[simp] theorem lex_indentation (depth : Nat) (text : List Char) :
    lex ((indentation depth).toList ++ text) = lex text := by
  induction depth with
  | zero => rfl
  | succ depth ih =>
    have hstep : indentation (depth + 1) = "    " ++ indentation depth := by
      simp [indentation, List.replicate_succ]
    rw [hstep, String.toList_append, List.append_assoc]
    simpa using ih

/-- The keywords as words. -/
theorem lex_keyword {word : String} {keyword : Keyword} (h : (word, keyword) ∈ keywords)
    (text : List Char) :
    lex (word.toList ++ ' ' :: text) = prepend [.keyword keyword] (lex text) := by
  have hword : IsWord word ∧ Token.ofWord word.toList = .keyword keyword := by
    simp only [keywords, List.mem_cons, Prod.mk.injEq, List.not_mem_nil, or_false] at h
    rcases h with ⟨rfl, rfl⟩ | ⟨rfl, rfl⟩ | ⟨rfl, rfl⟩ | ⟨rfl, rfl⟩ | ⟨rfl, rfl⟩ <;>
      exact ⟨isWord_of_all (by decide) (by decide), by decide⟩
  rw [hword.1.spells _ (ends_cons.2 (by decide)), hword.2, lex_space]

theorem lex_code (text : List Char) :
    lex ('C' :: 'O' :: 'D' :: 'E' :: ' ' :: text) = prepend [.keyword .code] (lex text) :=
  lex_keyword (by decide : ("CODE", _) ∈ keywords) text

theorem lex_int (text : List Char) :
    lex ('i' :: 'n' :: 't' :: ' ' :: text) = prepend [.keyword .int] (lex text) :=
  lex_keyword (by decide : ("int", _) ∈ keywords) text

theorem lex_if (text : List Char) :
    lex ('i' :: 'f' :: ' ' :: text) = prepend [.keyword .ifWord] (lex text) :=
  lex_keyword (by decide : ("if", _) ∈ keywords) text

theorem lex_else (text : List Char) :
    lex ('e' :: 'l' :: 's' :: 'e' :: ' ' :: text) = prepend [.keyword .elseWord] (lex text) :=
  lex_keyword (by decide : ("else", _) ∈ keywords) text

theorem lex_return (text : List Char) :
    lex ('r' :: 'e' :: 't' :: 'u' :: 'r' :: 'n' :: ' ' :: text)
      = prepend [.keyword .returnWord] (lex text) :=
  lex_keyword (by decide : ("return", _) ∈ keywords) text

/-- A punctuator before a name. -/
theorem IsName.lex_behind {name : String} (h : IsName name) {c : Char} {punct : Punct}
    (hb : isBlank c = false) (hw : isWordChar c = false)
    (hs : singlePuncts.lookup c = some punct) {rest : List Char} (hr : Ends rest) :
    lex (c :: (name.toList ++ rest)) = prepend [.punct punct, .name name] (lex rest) := by
  have hname := h.spells rest hr
  obtain ⟨d, more, hd⟩ := List.exists_cons_of_ne_nil h.nonempty
  rw [hd, List.cons_append] at hname ⊢
  rw [lex_single hb hw hs (.inr (h.chars d (by simp [hd]))), hname, prepend_prepend]
  rfl

/-- An expression and the semicolon that ends its line. -/
theorem SpellsTerm.last {text : String} {value : Term} (h : SpellsTerm text.toList value) :
    ∃ tokens, ReadsTerm tokens value ∧ ∀ rest,
      lex (text.toList ++ ';' :: '\n' :: rest)
        = prepend (tokens ++ [.punct .semicolon]) (lex rest) := by
  obtain ⟨tokens, hs, hr⟩ := h
  refine ⟨tokens, hr, fun rest => ?_⟩
  rw [hs _ (ends_cons.2 (by decide)), lex_semicolon, lex_newline, prepend_prepend]

/-- A declaration of a node reads back at each depth. -/
theorem spellsStmt_declareCode (depth : Nat) {name text : String} {value : Term} (hn : IsName name)
    (h : SpellsTerm text.toList value) :
    SpellsStmt (indentation depth ++ "CODE *" ++ name ++ " = " ++ text ++ ";\n").toList
      (.declareCode name value) := by
  obtain ⟨tokens, hr, hlast⟩ := h.last
  refine ⟨_, fun rest => ?_, hr.declareCode name⟩
  have hname : ∀ rest, lex ('*' :: (name.toList ++ ' ' :: rest))
      = prepend [.punct (.operator (.arithmetic .mul)), .name name] (lex rest) := fun rest => by
    rw [hn.lex_behind (by decide) (by decide) rfl (ends_cons.2 (by decide)), lex_space]
  simp [lex_code, hname, hlast]

theorem spellsStmt_declareInt (depth : Nat) {name : String} (hn : IsName name) :
    SpellsStmt (indentation depth ++ "int " ++ name ++ ";\n").toList (.declareInt name) := by
  refine ⟨_, fun rest => ?_, readsStmt_declareInt name⟩
  have hname := hn.spells (';' :: '\n' :: rest) (ends_cons.2 (by decide))
  simp [lex_int, hname]

/-- Linking a node reads back at each depth. -/
theorem spellsStmt_setNext (depth : Nat) {name text : String} {value : Term} (hn : IsName name)
    (h : SpellsTerm text.toList value) :
    SpellsStmt (indentation depth ++ name ++ "->next = " ++ text ++ ";\n").toList
      (.setField name "next" value) := by
  obtain ⟨tokens, hr, hlast⟩ := h.last
  refine ⟨_, fun rest => ?_, hr.setField name "next"⟩
  have hname : ∀ rest, lex (name.toList ++ '-' :: rest)
      = prepend [.name name] (lex ('-' :: rest)) := fun rest =>
    hn.spells _ (ends_cons.2 (by decide))
  have hfield : ∀ rest, lex ('n' :: 'e' :: 'x' :: 't' :: ' ' :: rest)
      = prepend [.name "next"] (lex rest) := fun rest => by
    have hnext := (isName_fixed (by decide : "next" ∈ _)).spells (' ' :: rest)
      (ends_cons.2 (by decide))
    simpa using hnext
  simp [hname, hfield, hlast]

/-- A return reads back at each depth. -/
theorem spellsStmt_ret (depth : Nat) {text : String} {value : Term}
    (h : SpellsTerm text.toList value) :
    SpellsStmt (indentation depth ++ "return " ++ text ++ ";\n").toList (.ret value) := by
  obtain ⟨tokens, hr, hlast⟩ := h.last
  refine ⟨_, fun rest => ?_, hr.ret⟩
  simp [lex_return, hlast]

theorem spellsTerm_zero : SpellsTerm "0".toList (.number "0") :=
  (IsDigits.operand ⟨by decide, List.all_eq_true.1 (by decide)⟩ : SpellsOperand ['0'] _).term

/-- `if (…) return 0;` -/
theorem spellsStmt_guard (depth : Nat) {text : String} {value : Term}
    (h : SpellsTerm text.toList value) :
    SpellsStmt (indentation depth ++ "if (" ++ text ++ ") return 0;\n").toList
      (.branch value [.ret (.number "0")] []) := by
  obtain ⟨tokens, hs, hr⟩ := h
  obtain ⟨zero, hzr, hzlast⟩ := spellsTerm_zero.last
  refine ⟨_, fun rest => ?_, hr.guarded hzr.ret⟩
  have hcondition : ∀ rest, lex (text.toList ++ ')' :: rest)
      = prepend tokens (lex (')' :: rest)) := fun rest => hs _ (ends_cons.2 (by decide))
  have hzero : lex ('0' :: ';' :: '\n' :: rest)
      = prepend (zero ++ [.punct .semicolon]) (lex rest) := hzlast rest
  simp [lex_if, hcondition, lex_return, hzero]

end Peephole

import Peephole.Grammar.Lexeme
import Peephole.Tree.Operator

/-!
# Proofs/C/Syntax — reading the C that matchers are written in

    characters ──lex──▸ tokens ──statements──▸ statements

Generated code is text, so what it does is what C makes of that text.  This is the part of C that
matchers use: functions over a `CODE **`, declarations of `CODE *` and `int` locals, assignments to
a `next` field, `return`, `if` / `else`, and expressions with the precedence C gives their
operators.  Nothing here looks at how the text came about; a text outside this part of C has no
reading.
-/

namespace Peephole.C

/-! ## Tokens -/

/-- The words with a meaning of their own; `CODE` names a type. -/
inductive Keyword where
  | code
  | int
  | ifWord
  | elseWord
  | returnWord
deriving DecidableEq, Repr

/-- Punctuators.  `*`, `&` and `-` are one token each, whatever they are used for. -/
inductive Punct where
  | lparen
  | rparen
  | lbrace
  | rbrace
  | comma
  | semicolon
  | assign
  | arrow
  | bang
  | amp
  | operator (op : Operator)
deriving DecidableEq, Repr

/-- A token of C, as far as matchers use it. -/
inductive Token where
  | keyword (keyword : Keyword)
  /-- A word that starts with a digit. -/
  | number (text : String)
  | name (text : String)
  | punct (punct : Punct)
deriving DecidableEq, Repr

/-- The words that are no names. -/
def keywords : List (String × Keyword) :=
  [("CODE", .code), ("int", .int), ("if", .ifWord), ("else", .elseWord), ("return", .returnWord)]

/-- The token a whole word is. -/
def Token.ofWord (word : List Char) : Token :=
  match keywords.lookup (String.ofList word) with
  | some reserved => .keyword reserved
  | none =>
    if (word.head?.map Char.isDigit).getD false then .number (String.ofList word)
    else .name (String.ofList word)

/-- The punctuators of two characters.  Those without a meaning here are listed too, for C takes
the longest punctuator: `--` is a decrement and no two minus signs, and `//` opens a comment. -/
def doublePuncts : List ((Char × Char) × Option Punct) :=
  [(('=', '='), some (.operator (.condition .eq))), (('!', '='), some (.operator (.condition .ne))),
    (('&', '&'), some (.operator (.condition .and))),
    (('|', '|'), some (.operator (.condition .or))),
    (('<', '='), some (.operator (.condition .le))),
    (('>', '='), some (.operator (.condition .ge))), (('-', '>'), some .arrow), (('-', '-'), none),
    (('+', '+'), none), (('/', '/'), none), (('/', '*'), none), (('<', '<'), none),
    (('>', '>'), none), (('+', '='), none), (('-', '='), none), (('*', '='), none),
    (('/', '='), none), (('%', '='), none), (('&', '='), none), (('|', '='), none)]

/-- The punctuators of one character. -/
def singlePuncts : List (Char × Punct) :=
  [('(', .lparen), (')', .rparen), ('\x7b', .lbrace), ('\x7d', .rbrace), (',', .comma),
    (';', .semicolon), ('=', .assign), ('!', .bang), ('&', .amp),
    ('<', .operator (.condition .lt)), ('>', .operator (.condition .gt)),
    ('+', .operator (.arithmetic .add)), ('-', .operator (.arithmetic .sub)),
    ('*', .operator (.arithmetic .mul)), ('/', .operator (.arithmetic .div)),
    ('%', .operator (.arithmetic .rem))]

/-- The punctuator at the front of a text. -/
def scanPunct : List Char → Option (Punct × List Char)
  | [] => none
  | [a] => (singlePuncts.lookup a).map (·, [])
  | a :: b :: rest =>
    match doublePuncts.lookup (a, b) with
    | some double => double.map (·, rest)
    | none => (singlePuncts.lookup a).map (·, b :: rest)

/-- Scanning punctuation takes at least one character. -/
theorem scanPunct_length {text rest : List Char} {punct : Punct}
    (h : scanPunct text = some (punct, rest)) : rest.length < text.length := by
  unfold scanPunct at h
  split at h
  · simp at h
  · obtain ⟨_, _, h⟩ := Option.map_eq_some_iff.1 h
    obtain ⟨-, rfl⟩ := Prod.mk.inj h
    simp
  · split at h
    all_goals
      obtain ⟨_, _, h⟩ := Option.map_eq_some_iff.1 h
      obtain ⟨-, rfl⟩ := Prod.mk.inj h
      simp only [List.length_cons]
      omega

/-- The tokens of a text. -/
def lex (text : List Char) : Option (List Token) :=
  match text with
  | [] => some []
  | c :: rest =>
    if isBlank c then lex rest
    else if isWordChar c then
      (lex (rest.dropWhile isWordChar)).map (Token.ofWord (c :: rest.takeWhile isWordChar) :: ·)
    else
      match _h : scanPunct (c :: rest) with
      | none => none
      | some (punct, rest) => (lex rest).map (.punct punct :: ·)
termination_by text.length
decreasing_by
  · simp
  · have := (List.dropWhile_sublist isWordChar (l := rest)).length_le
    simp; omega
  · have := scanPunct_length _h
    simpa using this

/-! ## Expressions

`levels` lists the binary operators from the loosest to the tightest.  Every level leans left: it
reads operands of the next level and folds them as it meets its operators.  `fuel` bounds the depth
of the reading; `term` gives it more than any text can use. -/

/-- The unary operators: `-`, `!`, `*` and `&`. -/
inductive Unary where
  | minus
  | not
  | deref
  | address
deriving DecidableEq, Repr

/-- An expression of C, as far as matchers use it. -/
inductive Term where
  | number (text : String)
  | name (text : String)
  | unary (op : Unary) (operand : Term)
  | binary (op : Operator) (lhs rhs : Term)
  | call (function : String) (arguments : List Term)

/-- The precedence of the binary operators. -/
def levels : List (List Operator) :=
  [[.condition .or], [.condition .and], [.condition .eq, .condition .ne],
    [.condition .lt, .condition .gt, .condition .le, .condition .ge],
    [.arithmetic .add, .arithmetic .sub], [.arithmetic .mul, .arithmetic .div, .arithmetic .rem]]

/-- The operator at the front, where it is one of the given. -/
def operator? (operators : List Operator) : List Token → Option (Operator × List Token)
  | .punct (.operator op) :: rest => if op ∈ operators then some (op, rest) else none
  | _ => none

/-- The unary operator at the front. -/
def unary? : List Token → Option (Unary × List Token)
  | .punct (.operator (.arithmetic .sub)) :: rest => some (.minus, rest)
  | .punct .bang :: rest => some (.not, rest)
  | .punct (.operator (.arithmetic .mul)) :: rest => some (.deref, rest)
  | .punct .amp :: rest => some (.address, rest)
  | _ => none

/-- The tokens after a given punctuator. -/
def expect (punct : Punct) : List Token → Option (List Token)
  | token :: rest => if token = .punct punct then some rest else none
  | [] => none

mutual

/-- The expression of some levels at the front. -/
def level : Nat → List (List Operator) → List Token → Option (Term × List Token)
  | 0, _, _ => none
  | fuel + 1, [], tokens => operand fuel tokens
  | fuel + 1, operators :: tighter, tokens => do
    let (lhs, rest) ← level fuel tighter tokens
    chain fuel operators tighter lhs rest

/-- What operators of one level, with operands of the tighter ones, make of `lhs`. -/
def chain : Nat → List Operator → List (List Operator) → Term → List Token →
    Option (Term × List Token)
  | 0, _, _, _, _ => none
  | fuel + 1, operators, tighter, lhs, tokens =>
    match operator? operators tokens with
    | none => some (lhs, tokens)
    | some (op, rest) => do
      let (rhs, rest) ← level fuel tighter rest
      chain fuel operators tighter (.binary op lhs rhs) rest

/-- The operand of the tightest level at the front. -/
def operand : Nat → List Token → Option (Term × List Token)
  | 0, _ => none
  | fuel + 1, tokens =>
    match unary? tokens with
    | some (op, rest) => do
      let (value, rest) ← operand fuel rest
      return (.unary op value, rest)
    | none =>
      match tokens with
      | .punct .lparen :: rest => do
        let (value, rest) ← level fuel levels rest
        return (value, ← expect .rparen rest)
      | .number text :: rest => some (.number text, rest)
      | .name text :: .punct .lparen :: rest => do
        let (arguments, rest) ← arguments fuel rest
        return (.call text arguments, rest)
      | .name text :: rest => some (.name text, rest)
      | _ => none

/-- The arguments of a call, up to its closing parenthesis. -/
def arguments : Nat → List Token → Option (List Term × List Token)
  | 0, _ => none
  | fuel + 1, tokens =>
    match tokens with
    | .punct .rparen :: rest => some ([], rest)
    | tokens => do
      let (first, rest) ← level fuel levels tokens
      let (more, rest) ← furtherArguments fuel rest
      return (first :: more, rest)

/-- The arguments after the first, each behind a comma. -/
def furtherArguments : Nat → List Token → Option (List Term × List Token)
  | 0, _ => none
  | fuel + 1, tokens =>
    match tokens with
    | .punct .rparen :: rest => some ([], rest)
    | .punct .comma :: rest => do
      let (first, rest) ← level fuel levels rest
      let (more, rest) ← furtherArguments fuel rest
      return (first :: more, rest)
    | _ => none

end

/-- The expression at the front. -/
def term (tokens : List Token) : Option (Term × List Token) :=
  level (8 * tokens.length + 8) levels tokens

/-! ## Statements -/

/-- A statement of C, as far as matchers use it. -/
inductive Stmt where
  /-- `CODE *local = value;` -/
  | declareCode (name : String) (value : Term)
  /-- `int local;` -/
  | declareInt (name : String)
  /-- `local->field = value;` -/
  | setField (name field : String) (value : Term)
  | ret (value : Term)
  /-- `if (condition) … else …`; the second part is empty without an else. -/
  | branch (condition : Term) (yes no : List Stmt)

/-- An expression and the semicolon after it. -/
def lastTerm (tokens : List Token) : Option (Term × List Token) := do
  let (value, rest) ← term tokens
  return (value, ← expect .semicolon rest)

mutual

/-- The statement at the front. -/
def statement : Nat → List Token → Option (Stmt × List Token)
  | 0, _ => none
  | fuel + 1, tokens =>
    match tokens with
    | .keyword .code :: .punct (.operator (.arithmetic .mul)) :: .name text :: .punct .assign ::
        rest => do
      let (value, rest) ← lastTerm rest
      return (.declareCode text value, rest)
    | .keyword .int :: .name text :: .punct .semicolon :: rest => some (.declareInt text, rest)
    | .name text :: .punct .arrow :: .name field :: .punct .assign :: rest => do
      let (value, rest) ← lastTerm rest
      return (.setField text field value, rest)
    | .keyword .returnWord :: rest => do
      let (value, rest) ← lastTerm rest
      return (.ret value, rest)
    | .keyword .ifWord :: .punct .lparen :: rest => do
      let (condition, rest) ← term rest
      let (yes, rest) ← body fuel (← expect .rparen rest)
      match rest with
      | .keyword .elseWord :: rest =>
        let (no, rest) ← body fuel rest
        return (.branch condition yes no, rest)
      | rest => return (.branch condition yes [], rest)
    | _ => none

/-- What an `if` or an `else` governs: a block, or one statement. -/
def body : Nat → List Token → Option (List Stmt × List Token)
  | 0, _ => none
  | fuel + 1, tokens =>
    match tokens with
    | .punct .lbrace :: rest => block fuel rest
    | tokens => do
      let (first, rest) ← statement fuel tokens
      return ([first], rest)

/-- The statements up to a closing brace. -/
def block : Nat → List Token → Option (List Stmt × List Token)
  | 0, _ => none
  | fuel + 1, tokens =>
    match tokens with
    | .punct .rbrace :: rest => some ([], rest)
    | tokens => do
      let (first, rest) ← statement fuel tokens
      let (more, rest) ← block fuel rest
      return (first :: more, rest)

end

/-- The statements up to the end. -/
def statements : Nat → List Token → Option (List Stmt)
  | 0, _ => none
  | _ + 1, [] => some []
  | fuel + 1, tokens => do
    let (first, rest) ← statement fuel tokens
    return first :: (← statements fuel rest)

/-- **The statements a text spells.** -/
def read (text : String) : Option (List Stmt) := do
  let tokens ← lex text.toList
  statements (tokens.length + 1) tokens

/-! ## Functions -/

/-- The definition of a function over one parameter.  Its name is no local and is left out. -/
structure Definition where
  parameter : String
  body : List Stmt

/-- **The function a text defines**, `int name(CODE **parameter)` and a block. -/
def readDefinition (text : String) : Option Definition := do
  match ← lex text.toList with
  | .keyword .int :: _ :: .punct .lparen :: .keyword .code ::
      .punct (.operator (.arithmetic .mul)) :: .punct (.operator (.arithmetic .mul)) ::
      .name parameter :: .punct .rparen :: .punct .lbrace :: rest =>
    match block (rest.length + 1) rest with
    | some (body, []) => some ⟨parameter, body⟩
    | _ => none
  | _ => none

end Peephole.C

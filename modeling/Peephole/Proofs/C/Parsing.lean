import Mathlib.Data.List.Basic
import Peephole.Proofs.C.Syntax

/-!
# Proofs/C/Parsing — how runs of tokens become expressions and statements

`ReadsOperand`, `ReadsTerm`, `ReadsStmt` and `ReadsStmts` say that a run of tokens is one operand,
one expression, one statement or several statements, whatever stands after it that cannot belong to
it.  There is one rule per form of the language.  An operand takes 8 units of fuel a token: one for
each level of operators it passes on its way down, and two to spare.
-/

namespace Peephole.C

/-- Tokens before which an expression ends. -/
structure Stops (rest : List Token) : Prop where
  operator : ∀ operators, operator? operators rest = none
  call : rest.head? ≠ some (.punct .lparen)

theorem stops_rparen (rest : List Token) : Stops (.punct .rparen :: rest) :=
  ⟨fun _ => rfl, by simp⟩

theorem stops_comma (rest : List Token) : Stops (.punct .comma :: rest) :=
  ⟨fun _ => rfl, by simp⟩

theorem stops_semicolon (rest : List Token) : Stops (.punct .semicolon :: rest) :=
  ⟨fun _ => rfl, by simp⟩

/-- Tokens that read as an operand. -/
structure ReadsOperand (tokens : List Token) (value : Term) : Prop where
  start : ∃ token more, tokens = token :: more ∧ token ≠ .punct .rparen
  parse : ∀ fuel rest, 8 * tokens.length ≤ fuel → rest.head? ≠ some (.punct .lparen) →
    operand fuel (tokens ++ rest) = some (value, rest)

/-- Tokens that read as an expression. -/
structure ReadsTerm (tokens : List Token) (value : Term) : Prop where
  start : ∃ token more, tokens = token :: more ∧ token ≠ .punct .rparen
  parse : ∀ fuel rest, 8 * tokens.length + 7 ≤ fuel → Stops rest →
    level fuel levels (tokens ++ rest) = some (value, rest)

/-! ## Operands -/

theorem readsOperand_number (text : String) : ReadsOperand [.number text] (.number text) where
  start := ⟨_, _, rfl, by simp⟩
  parse fuel rest hf _ := by
    obtain ⟨fuel, rfl⟩ : ∃ n, fuel = n + 1 := ⟨fuel - 1, by simp at hf; omega⟩
    rfl

/-- A name is an operand, as long as no parenthesis opens behind it. -/
theorem readsOperand_name (text : String) : ReadsOperand [.name text] (.name text) where
  start := ⟨_, _, rfl, by simp⟩
  parse fuel rest hf hr := by
    obtain ⟨fuel, rfl⟩ : ∃ n, fuel = n + 1 := ⟨fuel - 1, by simp at hf; omega⟩
    rw [List.singleton_append, operand]
    · rfl
    · rintro rest rfl
      simp at hr

/-- A unary operator and an operand are an operand. -/
theorem ReadsOperand.unary {tokens : List Token} {value : Term} {token : Token} {op : Unary}
    (h : ReadsOperand tokens value) (ht : token ≠ .punct .rparen)
    (hop : ∀ rest, unary? (token :: rest) = some (op, rest)) :
    ReadsOperand (token :: tokens) (.unary op value) where
  start := ⟨_, _, rfl, ht⟩
  parse fuel rest hf hr := by
    simp only [List.length_cons] at hf
    obtain ⟨fuel, rfl⟩ : ∃ n, fuel = n + 1 := ⟨fuel - 1, by omega⟩
    rw [List.cons_append, operand.eq_def]
    simp [hop, h.parse fuel rest (by omega) hr]

/-- Any expression in parentheses is an operand. -/
theorem ReadsTerm.parenthesized {tokens : List Token} {value : Term} (h : ReadsTerm tokens value) :
    ReadsOperand (.punct .lparen :: tokens ++ [.punct .rparen]) value where
  start := ⟨_, _, rfl, by simp⟩
  parse fuel rest hf _ := by
    simp only [List.length_append, List.length_cons, List.length_nil] at hf
    obtain ⟨fuel, rfl⟩ : ∃ n, fuel = n + 1 := ⟨fuel - 1, by omega⟩
    have hinner := h.parse fuel (.punct .rparen :: rest) (by omega) (stops_rparen rest)
    simp only [List.cons_append, List.append_assoc, List.nil_append]
    rw [operand]
    simp [unary?, hinner, expect]

/-! ## Levels -/

/-- Looser levels add nothing where none of their operators follows. -/
theorem level_looser {lower : List (List Operator)} {tokens rest : List Token} {value : Term}
    {need : Nat} (h : ∀ fuel, need ≤ fuel → level fuel lower tokens = some (value, rest))
    (hpos : 0 < need) (looser : List (List Operator))
    (hstop : ∀ operators ∈ looser, operator? operators rest = none) :
    ∀ fuel, need + looser.length ≤ fuel →
      level fuel (looser ++ lower) tokens = some (value, rest) := by
  induction looser with
  | nil => exact h
  | cons operators looser ih =>
    intro fuel hf
    simp only [List.length_cons] at hf
    obtain ⟨fuel, rfl⟩ : ∃ n, fuel = n + 2 := ⟨fuel - 2, by omega⟩
    have hinner := ih (fun ops hops => hstop ops (by simp [hops])) (fuel + 1) (by omega)
    have hop := hstop operators (by simp)
    rw [List.cons_append, level, hinner]
    simp [chain, hop]

/-- An operand is an expression of any levels none of whose operators follows. -/
theorem ReadsOperand.level_eq {tokens rest : List Token} {value : Term}
    (h : ReadsOperand tokens value)
    (hr : rest.head? ≠ some (.punct .lparen)) (ops : List (List Operator))
    (hstop : ∀ operators ∈ ops, operator? operators rest = none) {fuel : Nat}
    (hf : 8 * tokens.length + 1 + ops.length ≤ fuel) :
    level fuel ops (tokens ++ rest) = some (value, rest) := by
  have hbase : ∀ fuel, 8 * tokens.length + 1 ≤ fuel →
      level fuel [] (tokens ++ rest) = some (value, rest) := by
    intro fuel hf
    obtain ⟨fuel, rfl⟩ : ∃ n, fuel = n + 1 := ⟨fuel - 1, by omega⟩
    rw [level]
    exact h.parse fuel rest (by omega) hr
  simpa using level_looser hbase (by omega) ops hstop fuel hf

/-- The tokens of items, each behind a separator. -/
def behind (separator : Punct) (items : List (List Token × Term)) : List Token :=
  items.flatMap fun item => .punct separator :: item.1

@[simp] theorem behind_nil (separator : Punct) : behind separator [] = [] := rfl

@[simp] theorem behind_cons (separator : Punct) (item : List Token × Term)
    (items : List (List Token × Term)) :
    behind separator (item :: items) = .punct separator :: (item.1 ++ behind separator items) := by
  simp [behind]

/-- Operands behind one operator, folded from the left. -/
def foldBinary (op : Operator) (first : Term) (operands : List (List Token × Term)) : Term :=
  operands.foldl (fun lhs operand => .binary op lhs operand.2) first

theorem behind_append_call {op : Operator} {operands : List (List Token × Term)}
    {rest : List Token} (hr : rest.head? ≠ some (.punct .lparen)) :
    (behind (.operator op) operands ++ rest).head? ≠ some (.punct .lparen) := by
  cases operands <;> simp [hr]

/-- The operator between the operands is none of another level. -/
theorem behind_append_operator {op : Operator} {operands : List (List Token × Term)}
    {rest : List Token} {operators : List Operator} (hop : op ∉ operators)
    (hr : operator? operators rest = none) :
    operator? operators (behind (.operator op) operands ++ rest) = none := by
  cases operands with
  | nil => exact hr
  | cons operand operands => simp [operator?, hop]

/-- **Operands joined by one operator read as a chain**, to the left, at the level of the
operator. -/
theorem chain_behind {op : Operator} {operators : List Operator} {tighter : List (List Operator)}
    (hop : op ∈ operators) (htight : ∀ ops ∈ tighter, op ∉ ops) (hlen : tighter.length ≤ 5)
    {rest : List Token} (hr : Stops rest) (operands : List (List Token × Term))
    (hreads : ∀ operand ∈ operands, ReadsOperand operand.1 operand.2) (first : Term) :
    ∀ fuel, 8 * (behind (.operator op) operands).length + 1 ≤ fuel →
      chain fuel operators tighter first (behind (.operator op) operands ++ rest)
        = some (foldBinary op first operands, rest) := by
  induction operands generalizing first with
  | nil =>
    intro fuel hf
    obtain ⟨fuel, rfl⟩ : ∃ n, fuel = n + 1 := ⟨fuel - 1, by omega⟩
    simp [chain, hr.operator, foldBinary]
  | cons operand operands ih =>
    intro fuel hf
    simp only [behind_cons, List.length_cons, List.length_append] at hf ⊢
    obtain ⟨fuel, rfl⟩ : ∃ n, fuel = n + 1 := ⟨fuel - 1, by omega⟩
    have hhead : level fuel tighter (operand.1 ++ (behind (.operator op) operands ++ rest))
        = some (operand.2, behind (.operator op) operands ++ rest) :=
      (hreads operand (by simp)).level_eq (behind_append_call hr.call) tighter
        (fun ops hops => behind_append_operator (htight ops hops) (hr.operator ops)) (by omega)
    have htail := ih (fun o ho => hreads o (by simp [ho])) (.binary op first operand.2) fuel
      (by omega)
    rw [List.cons_append, List.append_assoc, chain]
    simp only [operator?, hop, if_true, hhead, Option.bind_eq_bind, Option.bind_some]
    exact htail

/-- Every operator has its level. -/
theorem levels_split (op : Operator) : ∃ looser operators tighter,
    levels = looser ++ operators :: tighter ∧ op ∈ operators ∧ ∀ ops ∈ tighter, op ∉ ops := by
  rcases op with op | op <;> cases op
  case arithmetic.add => exact ⟨levels.take 4, _, _, rfl, by decide, by decide⟩
  case arithmetic.sub => exact ⟨levels.take 4, _, _, rfl, by decide, by decide⟩
  case arithmetic.mul => exact ⟨levels.take 5, _, _, rfl, by decide, by decide⟩
  case arithmetic.div => exact ⟨levels.take 5, _, _, rfl, by decide, by decide⟩
  case arithmetic.rem => exact ⟨levels.take 5, _, _, rfl, by decide, by decide⟩
  case condition.eq => exact ⟨levels.take 2, _, _, rfl, by decide, by decide⟩
  case condition.ne => exact ⟨levels.take 2, _, _, rfl, by decide, by decide⟩
  case condition.and => exact ⟨levels.take 1, _, _, rfl, by decide, by decide⟩
  case condition.or => exact ⟨levels.take 0, _, _, rfl, by decide, by decide⟩
  case condition.lt => exact ⟨levels.take 3, _, _, rfl, by decide, by decide⟩
  case condition.gt => exact ⟨levels.take 3, _, _, rfl, by decide, by decide⟩
  case condition.le => exact ⟨levels.take 3, _, _, rfl, by decide, by decide⟩
  case condition.ge => exact ⟨levels.take 3, _, _, rfl, by decide, by decide⟩

/-- **Operands with one operator between them lean left.** -/
theorem ReadsOperand.chained {tokens : List Token} {first : Term} (h : ReadsOperand tokens first)
    (op : Operator) (operands : List (List Token × Term))
    (hreads : ∀ operand ∈ operands, ReadsOperand operand.1 operand.2) :
    ReadsTerm (tokens ++ behind (.operator op) operands) (foldBinary op first operands) where
  start := by
    obtain ⟨token, more, rfl, ht⟩ := h.start
    exact ⟨token, more ++ behind (.operator op) operands, rfl, ht⟩
  parse fuel rest hf hr := by
    obtain ⟨looser, operators, tighter, hlevels, hop, htight⟩ := levels_split op
    have hlen : looser.length + (tighter.length + 1) = 6 := by
      have := congrArg List.length hlevels
      simpa [levels] using this.symm
    simp only [List.length_append] at hf
    -- the level of `op` reads the first operand with the tighter levels and folds in the others
    have hlevel : ∀ fuel,
        8 * (tokens.length + (behind (.operator op) operands).length) + tighter.length + 2 ≤ fuel →
        level fuel (operators :: tighter) (tokens ++ (behind (.operator op) operands ++ rest))
          = some (foldBinary op first operands, rest) := by
      intro fuel hf
      obtain ⟨fuel, rfl⟩ : ∃ n, fuel = n + 1 := ⟨fuel - 1, by omega⟩
      have hhead : level fuel tighter (tokens ++ (behind (.operator op) operands ++ rest))
          = some (first, behind (.operator op) operands ++ rest) :=
        h.level_eq (behind_append_call hr.call) tighter
          (fun ops hops => behind_append_operator (htight ops hops) (hr.operator ops)) (by omega)
      rw [level, hhead]
      exact chain_behind hop htight (by omega) hr operands hreads first fuel (by omega)
    rw [hlevels, List.append_assoc]
    exact level_looser hlevel (by omega) looser (fun ops _ => hr.operator ops) fuel (by omega)

theorem ReadsOperand.term {tokens : List Token} {value : Term} (h : ReadsOperand tokens value) :
    ReadsTerm tokens value := by
  simpa [foldBinary] using h.chained (.condition .or) [] (by simp)

/-! ## Calls -/

/-- The arguments of a call are read up to its closing parenthesis. -/
theorem furtherArguments_eq (arguments : List (List Token × Term))
    (hreads : ∀ argument ∈ arguments, ReadsTerm argument.1 argument.2) (rest : List Token) :
    ∀ fuel, 8 * (behind .comma arguments).length + 1 ≤ fuel →
      furtherArguments fuel (behind .comma arguments ++ .punct .rparen :: rest)
        = some (arguments.map Prod.snd, rest) := by
  induction arguments with
  | nil =>
    intro fuel hf
    obtain ⟨fuel, rfl⟩ : ∃ n, fuel = n + 1 := ⟨fuel - 1, by omega⟩
    rfl
  | cons argument arguments ih =>
    intro fuel hf
    simp only [behind_cons, List.length_cons, List.length_append] at hf ⊢
    obtain ⟨fuel, rfl⟩ : ∃ n, fuel = n + 1 := ⟨fuel - 1, by omega⟩
    have hstops : Stops (behind .comma arguments ++ .punct .rparen :: rest) := by
      cases arguments with
      | nil => exact stops_rparen rest
      | cons => exact stops_comma _
    have hhead := (hreads argument (by simp)).parse fuel _ (by omega) hstops
    have htail := ih (fun a ha => hreads a (by simp [ha])) fuel (by omega)
    rw [List.cons_append, List.append_assoc, furtherArguments]
    simp [hhead, htail]

/-- **A call.** -/
theorem readsOperand_call (function : String) {tokens : List Token} {first : Term}
    (hfirst : ReadsTerm tokens first) (arguments : List (List Token × Term))
    (hreads : ∀ argument ∈ arguments, ReadsTerm argument.1 argument.2) :
    ReadsOperand
      (.name function :: .punct .lparen :: (tokens ++ behind .comma arguments ++ [.punct .rparen]))
      (.call function (first :: arguments.map Prod.snd)) where
  start := ⟨_, _, rfl, by simp⟩
  parse fuel rest hf _ := by
    simp only [List.length_append, List.length_cons, List.length_nil] at hf
    obtain ⟨fuel, rfl⟩ : ∃ n, fuel = n + 2 := ⟨fuel - 2, by omega⟩
    have hstops : Stops (behind .comma arguments ++ .punct .rparen :: rest) := by
      cases arguments with
      | nil => exact stops_rparen rest
      | cons => exact stops_comma _
    have hhead := hfirst.parse fuel _ (by omega) hstops
    have htail := furtherArguments_eq arguments hreads rest fuel (by omega)
    have harguments : C.arguments (fuel + 1)
        (tokens ++ (behind .comma arguments ++ .punct .rparen :: rest))
          = some (first :: arguments.map Prod.snd, rest) := by
      obtain ⟨token, more, hmore, ht⟩ := hfirst.start
      rw [hmore, List.cons_append] at hhead ⊢
      rw [C.arguments]
      · simp [hhead, htail]
      · rintro rest ⟨⟩
        exact ht rfl
    simp only [List.cons_append, List.append_assoc, List.nil_append]
    rw [operand]
    simp [unary?, harguments]

/-! ## Statements

A statement begins with a word, so no brace and no `else` can be taken for its start. -/

/-- How statements begin. -/
inductive Begins : List Token → Prop where
  | keyword {keyword : Keyword} (more : List Token) (h : keyword ≠ .elseWord) :
    Begins (.keyword keyword :: more)
  | name (text : String) (more : List Token) : Begins (.name text :: more)

/-- Tokens that read as a statement. -/
structure ReadsStmt (tokens : List Token) (stmt : Stmt) : Prop where
  begins : Begins tokens
  parse : ∀ fuel rest, tokens.length ≤ fuel → rest.head? ≠ some (.keyword .elseWord) →
    statement fuel (tokens ++ rest) = some (stmt, rest)

/-- Tokens that read as statements, in a block or up to the end. -/
structure ReadsStmts (tokens : List Token) (stmts : List Stmt) : Prop where
  noElse : tokens.head? ≠ some (.keyword .elseWord)
  block : ∀ fuel rest, tokens.length + 1 ≤ fuel →
    C.block fuel (tokens ++ .punct .rbrace :: rest) = some (stmts, rest)
  all : ∀ fuel, tokens.length + 1 ≤ fuel → statements fuel tokens = some stmts

/-- Tokens that read as what an `else` governs. -/
def ReadsBody (tokens : List Token) (stmts : List Stmt) : Prop :=
  ∀ fuel rest, tokens.length + 1 ≤ fuel → rest.head? ≠ some (.keyword .elseWord) →
    body fuel (tokens ++ rest) = some (stmts, rest)

/-- No statement starts with `else`, so an `if` before it has no such part. -/
theorem Begins.noElse {tokens : List Token} (h : Begins tokens) (rest : List Token) :
    (tokens ++ rest).head? ≠ some (.keyword .elseWord) := by
  cases h <;> simp_all

/-- An expression is read up to the semicolon. -/
theorem ReadsTerm.last {tokens : List Token} {value : Term} (h : ReadsTerm tokens value)
    (rest : List Token) : lastTerm (tokens ++ .punct .semicolon :: rest) = some (value, rest) := by
  have hterm : term (tokens ++ .punct .semicolon :: rest)
      = some (value, .punct .semicolon :: rest) :=
    h.parse _ _ (by simp; omega) (stops_semicolon rest)
  simp [lastTerm, hterm, expect]

/-- A declaration of a node reads back. -/
theorem ReadsTerm.declareCode (text : String) {tokens : List Token} {value : Term}
    (h : ReadsTerm tokens value) :
    ReadsStmt (.keyword .code :: .punct (.operator (.arithmetic .mul)) :: .name text ::
      .punct .assign :: (tokens ++ [.punct .semicolon])) (.declareCode text value) where
  begins := .keyword _ (by decide)
  parse fuel rest hf _ := by
    obtain ⟨fuel, rfl⟩ : ∃ n, fuel = n + 1 := ⟨fuel - 1, by simp at hf; omega⟩
    simp only [List.cons_append, List.append_assoc, List.nil_append]
    rw [statement]
    simp [h.last rest]

/-- A declaration of an `int` reads back. -/
theorem readsStmt_declareInt (text : String) :
    ReadsStmt [.keyword .int, .name text, .punct .semicolon] (.declareInt text) where
  begins := .keyword _ (by decide)
  parse fuel rest hf _ := by
    obtain ⟨fuel, rfl⟩ : ∃ n, fuel = n + 1 := ⟨fuel - 1, by simp at hf; omega⟩
    simp only [List.cons_append, List.nil_append]
    rw [statement]

/-- An assignment to a field reads back. -/
theorem ReadsTerm.setField (text field : String) {tokens : List Token} {value : Term}
    (h : ReadsTerm tokens value) :
    ReadsStmt (.name text :: .punct .arrow :: .name field :: .punct .assign ::
      (tokens ++ [.punct .semicolon])) (.setField text field value) where
  begins := .name _ _
  parse fuel rest hf _ := by
    obtain ⟨fuel, rfl⟩ : ∃ n, fuel = n + 1 := ⟨fuel - 1, by simp at hf; omega⟩
    simp only [List.cons_append, List.append_assoc, List.nil_append]
    rw [statement]
    simp [h.last rest]

/-- A return reads back. -/
theorem ReadsTerm.ret {tokens : List Token} {value : Term} (h : ReadsTerm tokens value) :
    ReadsStmt (.keyword .returnWord :: (tokens ++ [.punct .semicolon])) (.ret value) where
  begins := .keyword _ (by decide)
  parse fuel rest hf _ := by
    obtain ⟨fuel, rfl⟩ : ∃ n, fuel = n + 1 := ⟨fuel - 1, by simp at hf; omega⟩
    simp only [List.cons_append, List.append_assoc, List.nil_append]
    rw [statement]
    simp [h.last rest]

/-! ### Conditions -/

/-- One statement without braces is a body. -/
theorem ReadsStmt.body {tokens : List Token} {stmt : Stmt} (h : ReadsStmt tokens stmt) :
    ReadsBody tokens [stmt] := by
  intro fuel rest hf hr
  obtain ⟨fuel, rfl⟩ : ∃ n, fuel = n + 1 := ⟨fuel - 1, by omega⟩
  have hparse := h.parse fuel rest (by omega) hr
  rcases h.begins with ⟨more, _⟩ | ⟨text, more⟩
  all_goals
    rw [List.cons_append] at hparse ⊢
    rw [C.body]
    · simp [hparse]
    · simp

/-- Statements in braces are a body. -/
theorem ReadsStmts.body {tokens : List Token} {stmts : List Stmt} (h : ReadsStmts tokens stmts) :
    ReadsBody (.punct .lbrace :: (tokens ++ [.punct .rbrace])) stmts := by
  intro fuel rest hf _
  simp only [List.length_append, List.length_cons, List.length_nil] at hf
  obtain ⟨fuel, rfl⟩ : ∃ n, fuel = n + 1 := ⟨fuel - 1, by omega⟩
  simp only [List.cons_append, List.append_assoc, List.nil_append]
  rw [C.body]
  exact h.block fuel rest (by omega)

theorem ReadsTerm.condition {tokens : List Token} {value : Term} (h : ReadsTerm tokens value)
    (rest : List Token) :
    term (tokens ++ .punct .rparen :: rest) = some (value, .punct .rparen :: rest) :=
  h.parse _ _ (by simp; omega) (stops_rparen rest)

/-- **A statement under a condition, without an else.** -/
theorem ReadsTerm.guarded {tokens yes : List Token} {condition : Term} {stmt : Stmt}
    (h : ReadsTerm tokens condition) (hyes : ReadsStmt yes stmt) :
    ReadsStmt (.keyword .ifWord :: .punct .lparen :: (tokens ++ .punct .rparen :: yes))
      (.branch condition [stmt] []) where
  begins := .keyword _ (by decide)
  parse fuel rest hf hr := by
    simp only [List.length_append, List.length_cons] at hf
    obtain ⟨fuel, rfl⟩ : ∃ n, fuel = n + 1 := ⟨fuel - 1, by omega⟩
    have hbody := hyes.body fuel rest (by omega) hr
    simp only [List.cons_append, List.append_assoc]
    rw [statement]
    simp only [h.condition, expect, hbody, Option.bind_eq_bind, Option.bind_some, if_true]
    split
    · simp at hr
    · rfl

/-- **A block under a condition, with an else.** -/
theorem ReadsTerm.branched {tokens yes no : List Token} {condition : Term}
    {yesStmts noStmts : List Stmt} (h : ReadsTerm tokens condition)
    (hyes : ReadsStmts yes yesStmts) (hno : ReadsBody no noStmts) :
    ReadsStmt (.keyword .ifWord :: .punct .lparen :: (tokens ++ .punct .rparen :: .punct .lbrace ::
      (yes ++ .punct .rbrace :: .keyword .elseWord :: no)))
    (.branch condition yesStmts noStmts) where
  begins := .keyword _ (by decide)
  parse fuel rest hf hr := by
    simp only [List.length_append, List.length_cons] at hf
    obtain ⟨fuel, rfl⟩ : ∃ n, fuel = n + 2 := ⟨fuel - 2, by omega⟩
    have hthen : C.body (fuel + 1) (.punct .lbrace ::
        (yes ++ .punct .rbrace :: .keyword .elseWord :: (no ++ rest)))
          = some (yesStmts, .keyword .elseWord :: (no ++ rest)) := by
      rw [C.body]
      exact hyes.block fuel _ (by omega)
    have helse := hno (fuel + 1) rest (by omega) hr
    simp only [List.cons_append, List.append_assoc]
    rw [statement]
    simp [h.condition, expect, hthen, helse]

/-! ### Sequences -/

theorem readsStmts_nil : ReadsStmts [] [] where
  noElse := by simp
  block fuel rest hf := by
    obtain ⟨fuel, rfl⟩ : ∃ n, fuel = n + 1 := ⟨fuel - 1, by omega⟩
    rfl
  all fuel hf := by
    obtain ⟨fuel, rfl⟩ : ∃ n, fuel = n + 1 := ⟨fuel - 1, by omega⟩
    rfl

/-- A statement in front of statements reads back. -/
theorem ReadsStmts.cons {tokens more : List Token} {stmt : Stmt} {stmts : List Stmt}
    (h : ReadsStmt tokens stmt) (hmore : ReadsStmts more stmts) :
    ReadsStmts (tokens ++ more) (stmt :: stmts) where
  noElse := h.begins.noElse more
  block fuel rest hf := by
    simp only [List.length_append] at hf
    obtain ⟨fuel, rfl⟩ : ∃ n, fuel = n + 1 := ⟨fuel - 1, by omega⟩
    have hlen : 0 < tokens.length := by cases h.begins <;> simp
    have hnext : (more ++ .punct .rbrace :: rest).head? ≠ some (.keyword .elseWord) := by
      have := hmore.noElse
      cases more <;> simp_all
    have hparse := h.parse fuel (more ++ .punct .rbrace :: rest) (by omega) hnext
    have hblock := hmore.block fuel rest (by omega)
    rw [List.append_assoc]
    rcases h.begins with ⟨tail, _⟩ | ⟨text, tail⟩
    all_goals
      rw [List.cons_append] at hparse ⊢
      rw [C.block]
      · simp [hparse, hblock]
      · simp
  all fuel hf := by
    simp only [List.length_append] at hf
    obtain ⟨fuel, rfl⟩ : ∃ n, fuel = n + 1 := ⟨fuel - 1, by omega⟩
    have hlen : 0 < tokens.length := by cases h.begins <;> simp
    have hparse := h.parse fuel more (by omega) hmore.noElse
    have hall := hmore.all fuel (by omega)
    rcases h.begins with ⟨tail, _⟩ | ⟨text, tail⟩
    all_goals
      rw [List.cons_append] at hparse ⊢
      rw [statements]
      · simp [hparse, hall]
      · simp

end Peephole.C

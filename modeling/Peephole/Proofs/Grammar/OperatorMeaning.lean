import Peephole.Proofs.C.Printing
import Peephole.Proofs.Grammar.Precedence
import Peephole.Proofs.Replacement.Compiles

/-!
# Proofs/Grammar/OperatorMeaning — an expression means the same in a pattern file and in C

    text ──lexemes──▸ ──Groups──▸ grouping ◂──C reads── C text ◂──toExpr── tree ◂──read── text

The tree of an expression has runs of operands, and it takes an operand in parentheses apart where
its operator is the same.  Neither changes what is grouped with what: reading takes lexemes that
have a grouping (`takes_expression`), and the C text of the tree has that grouping, with each
variable as its C local.

`Takes reader before after P` is the invariant that goes through the readers: the lexemes the reader
takes fit its value.
-/

namespace Peephole

open Lexeme

/-! ## Groupings of C expressions -/

namespace C

/-- The expression a text spells. -/
def Term.ofText? (text : String) : Option Term := do
  let (value, rest) ← term (← lex text.toList)
  if rest.isEmpty then return value else none

/-- What a C expression groups.  A minus sign before a number belongs to the number. -/
def Term.grouping? : Term → Option Grouping
  | number text => some (.literal text)
  | unary .minus (number text) => some (.literal ("-" ++ text))
  | name text => some (.name text)
  | binary op lhs rhs => do return .binary op (← grouping? lhs) (← grouping? rhs)
  | _ => none

end C

open C

/-- A text that spells an expression of C reads as that expression. -/
theorem SpellsTerm.ofText? {text : String} {value : Term} (h : SpellsTerm text.toList value) :
    Term.ofText? text = some value := by
  obtain ⟨tokens, hs, hr⟩ := h
  have hlex : lex text.toList = some tokens := by
    simpa [show lex [] = some [] by rw [lex]] using hs [] ends_nil
  have hterm := hr.parse (8 * tokens.length + 8) [] (by omega) ⟨fun _ => rfl, by simp⟩
  rw [List.append_nil] at hterm
  simp [Term.ofText?, hlex, term, hterm]

/-- A grouping with its variables renamed. -/
def Grouping.rename (f : String → String) : Grouping → Grouping
  | literal text => .literal text
  | name text => .name (f text)
  | binary op lhs rhs => .binary op (lhs.rename f) (rhs.rename f)

/-- The tree is written as a C expression with this grouping. -/
def Node.Means (node : Node) (grouping : Grouping) : Prop :=
  ∃ expr, node.toExpr = .ok expr ∧ expr.toTerm.grouping? = some (grouping.rename argumentLocal)

theorem Expr.toTerms_eq (exprs : List Expr) : Expr.toTerms exprs = exprs.map Expr.toTerm := by
  induction exprs with
  | nil => rfl
  | cons expr exprs ih => rw [Expr.toTerms, ih, List.map_cons]

theorem foldTerm_append (op : Operator) {terms : List Term} (hne : terms ≠ []) (last : Term) :
    foldTerm op (terms ++ [last]) = .binary op (foldTerm op terms) last := by
  obtain ⟨first, terms, rfl⟩ := List.exists_cons_of_ne_nil hne
  simp [foldTerm]

namespace Node.Means

/-- A literal means itself. -/
theorem integer {text : String} (h : IsInteger text) :
    Means (.leaf .integer text) (.literal text) := by
  refine ⟨.literal text, rfl, ?_⟩
  rw [Expr.toTerm]
  rcases h with @⟨digits, h⟩ | @⟨digits, h⟩
  · rw [literalTerm_digits h]
    rfl
  · have hsign : "-" ++ String.ofList digits = String.ofList ('-' :: digits) := by
      rw [← String.toList_inj]
      simp
    rw [literalTerm_negative, Term.grouping?, hsign]
    rfl

theorem reference (name : String) : Means (.leaf .reference name) (.name name) :=
  ⟨.argument name, rfl, by rw [Expr.toTerm]; rfl⟩

/-- **One more operand on the right**, whether it makes a new node or joins a run. -/
theorem extend {lhs rhs : Node} {left right : Grouping} {kind : Kind} {op : Operator}
    (hop : kind.operator? = some op) (hl : lhs.Means left) (hr : rhs.Means right) :
    (lhs.extend kind rhs).Means (.binary op left right) := by
  obtain ⟨first, hfirst, hleft⟩ := hl
  obtain ⟨last, hlast, hright⟩ := hr
  have hlast' : List.Forall₂ (fun node expr => node.toExpr = .ok expr) [rhs] [last] :=
    .cons hlast .nil
  unfold Node.extend
  split
  case isTrue h =>
    obtain ⟨kind', text, operands⟩ := lhs
    obtain ⟨rfl, two⟩ : kind' = kind ∧ 2 ≤ operands.length := h
    obtain ⟨exprs, hexprs, rfl⟩ := (Node.toExpr_operation hop two).1 hfirst
    rw [Node.toExprs_eq_ok_iff] at hexprs
    refine ⟨.chain op (exprs ++ [last]), (Node.toExpr_operation hop ?_).2 ⟨_, ?_, rfl⟩, ?_⟩
    · exact two.trans (by simp)
    · exact Node.toExprs_eq_ok_iff.2 (List.rel_append hexprs hlast')
    · have hne : exprs.map Expr.toTerm ≠ [] := by
        rintro hnil
        rw [hexprs.length_eq, List.map_eq_nil_iff.1 hnil] at two
        simp at two
      rw [Expr.toTerm, Expr.toTerms_eq] at hleft ⊢
      rw [List.map_append, List.map_singleton, foldTerm_append op hne, Term.grouping?, hleft,
        hright]
      rfl
  case isFalse =>
    refine ⟨.chain op [first, last], (Node.toExpr_operation hop le_rfl).2 ⟨_, ?_, rfl⟩, ?_⟩
    · exact Node.toExprs_eq_ok_iff.2 (.cons hfirst hlast')
    · rw [Expr.toTerm, Expr.toTerms_eq]
      show (Term.binary op first.toTerm last.toTerm).grouping? = _
      rw [Term.grouping?, hleft, hright]
      rfl

end Node.Means

/-! ## Lexemes that readers take -/

/-- Behind a gap, the lexeme that is scanned comes first. -/
theorem lexemes_of_scan {place : Place} {text rest : List Char} {lexeme : Lexeme}
    (h : Lexeme.scan place (dropGap .blanks text) = some (lexeme, rest)) :
    lexemes place text = lexeme :: lexemes lexeme.next rest := by
  rw [lexemes]
  split
  case h_1 hscan => rw [h] at hscan; cases hscan
  case h_2 hscan =>
    obtain ⟨rfl, rfl⟩ := Prod.mk.inj (Option.some.inj (h.symm.trans hscan))
    rfl

theorem lexemes_dropGap (place : Place) (text : List Char) :
    lexemes place (dropGap .blanks text) = lexemes place text := by
  rw [lexemes, lexemes.eq_def place text, dropGap_dropGap]

/-- **Behind a gap, the reader takes lexemes that fit its value.** -/
def Takes {α : Type} (reader : Reader α) (before after : Place) (P : α → List Lexeme → Prop) :
    Prop :=
  ∀ text value rest, reader.read (dropGap .blanks text) = some (value, rest) →
    ∃ run, lexemes before text = run ++ lexemes after rest ∧ P value run

namespace Takes

variable {α β : Type} {before mid after : Place} {reader : Reader α}
  {P P' : α → List Lexeme → Prop} {Q : β → List Lexeme → Prop}

theorem mono (h : Takes reader before after P) (himp : ∀ value run, P value run → P' value run) :
    Takes reader before after P' := by
  intro text value rest hread
  obtain ⟨run, hrun, hP⟩ := h text value rest hread
  exact ⟨run, hrun, himp value run hP⟩

/-- A reader that takes one lexeme. -/
theorem lexeme
    (h : ∀ text value rest, reader.read text = some (value, rest) →
      ∃ lexeme, Lexeme.scan before text = some (lexeme, rest) ∧ lexeme.next = after ∧
        P value [lexeme]) :
    Takes reader before after P := by
  intro text value rest hread
  obtain ⟨lexeme, hscan, rfl, hP⟩ := h _ value rest hread
  exact ⟨[lexeme], lexemes_of_scan hscan, hP⟩

theorem pure {value : α} (h : P value []) : Takes (Pure.pure value : Reader α) before before P := by
  intro text value' rest hread
  rw [Reader.read_pure] at hread
  obtain ⟨rfl, rfl⟩ := Prod.mk.inj (Option.some.inj hread)
  exact ⟨[], by rw [lexemes_dropGap, List.nil_append], h⟩

/-- Alternatives take what fits, if each of them does. -/
theorem orElse {first second : Reader α} (hf : Takes first before after P)
    (hs : Takes second before after P) : Takes (first <|> second) before after P := by
  intro text value rest hread
  rw [Reader.read_orElse, Option.or_eq_some_iff] at hread
  rcases hread with hread | ⟨-, hread⟩
  · exact hf _ _ _ hread
  · exact hs _ _ _ hread

/-- Two readers with a gap between them. -/
theorem bind {next : α → Reader β} (h : Takes reader before mid P)
    (hnext : ∀ value first, P value first →
      Takes (next value) mid after fun result second => Q result (first ++ second)) :
    Takes (do let value ← reader; Reader.gap; next value) before after Q := by
  intro text result rest hread
  rw [Reader.read_bind, Option.bind_eq_some_iff] at hread
  obtain ⟨⟨value, middle⟩, hvalue, hmore⟩ := hread
  rw [Reader.read_bind, Reader.gap, Reader.read_silent, Option.bind_some] at hmore
  obtain ⟨first, hfirst, hP⟩ := h _ _ _ hvalue
  obtain ⟨second, hsecond, hQ⟩ := hnext value first hP _ _ _ hmore
  exact ⟨first ++ second, by rw [hfirst, hsecond, List.append_assoc], hQ⟩

/-- A result may be computed from what a reader takes. -/
theorem result {next : α → Reader β} (h : Takes reader before after P)
    (hnext : ∀ value, ∃ result, next value = Pure.pure result ∧
      ∀ run, P value run → Q result run) :
    Takes (reader >>= next) before after Q := by
  intro text result rest hread
  rw [Reader.read_bind, Option.bind_eq_some_iff] at hread
  obtain ⟨⟨value, middle⟩, hvalue, hmore⟩ := hread
  obtain ⟨last, hlast, hQ⟩ := hnext value
  rw [hlast, Reader.read_pure] at hmore
  obtain ⟨rfl, rfl⟩ := Prod.mk.inj (Option.some.inj hmore)
  obtain ⟨run, hrun, hP⟩ := h _ _ _ hvalue
  exact ⟨run, hrun, hQ run hP⟩

theorem map (f : α → β) (h : Takes reader before after P)
    (hf : ∀ value run, P value run → Q (f value) run) :
    Takes (do return f (← reader)) before after Q :=
  h.result fun value => ⟨f value, rfl, hf value⟩

/-- Repetitions take what fits, by induction on the rounds. -/
theorem readMany {R : List α → List Lexeme → Prop} (h : Takes reader before before P)
    (hnil : R [] [])
    (hcons : ∀ value run values runs, P value run → R values runs →
      R (value :: values) (run ++ runs)) (rounds : Nat) (text : List Char) :
    ∃ run, lexemes before text
        = run ++ lexemes before (Reader.readMany (do Reader.gap; reader) rounds text).2 ∧
      R (Reader.readMany (do Reader.gap; reader) rounds text).1 run := by
  induction rounds generalizing text with
  | zero => exact ⟨[], rfl, hnil⟩
  | succ rounds ih =>
    have hgap : (do Reader.gap; reader : Reader α).read text
        = reader.read (dropGap .blanks text) := rfl
    cases hread : reader.read (dropGap .blanks text) with
    | none =>
      rw [Reader.readMany_of_refused (hgap.trans hread)]
      exact ⟨[], rfl, hnil⟩
    | some result =>
      rw [Reader.readMany_of_taken (hgap.trans hread)]
      obtain ⟨first, hfirst, hP⟩ := h _ _ _ hread
      obtain ⟨more, hmore, hR⟩ := ih result.2
      exact ⟨first ++ more, by rw [hfirst, hmore, List.append_assoc], hcons _ _ _ _ hP hR⟩

/-- As many as there are, each behind a gap. -/
theorem series {R : List α → List Lexeme → Prop} (h : Takes reader before before P) (hnil : R [] [])
    (hcons : ∀ value run values runs, P value run → R values runs →
      R (value :: values) (run ++ runs)) :
    Takes (Reader.series reader) before before R := by
  refine orElse ?_ (pure hnil)
  intro text values rest hread
  rw [Reader.read_bind, Option.bind_eq_some_iff] at hread
  obtain ⟨⟨value, middle⟩, hvalue, hmore⟩ := hread
  rw [Reader.read_bind, Reader.read_many, Option.bind_some, Reader.read_pure] at hmore
  obtain ⟨rfl, rfl⟩ := Prod.mk.inj (Option.some.inj hmore)
  obtain ⟨first, hfirst, hP⟩ := h _ _ _ hvalue
  obtain ⟨more, hlexemes, hR⟩ := h.readMany hnil hcons (middle.length + 1) middle
  exact ⟨first ++ more, by rw [hfirst, hlexemes, List.append_assoc], hcons _ _ _ _ hP hR⟩

theorem optional {R : Option α → List Lexeme → Prop} (h : Takes reader before before P)
    (hnone : R none []) (hsome : ∀ value run, P value run → R (some value) run) :
    Takes (Reader.optional? reader) before before R :=
  orElse (map some h hsome) (pure hnone)

end Takes

/-! ## Expressions -/

/-- The lexemes of a tree, whose operators outside of parentheses have at least this level. -/
def Denotes (level : Nat) (node : Node) (run : List Lexeme) : Prop :=
  ∃ grouping, Groups level run grouping ∧ node.Means grouping

/-- The lexeme of an operator of this level. -/
def Joins (level : Nat) (kind : Kind) (run : List Lexeme) : Prop :=
  ∃ op, kind.operator? = some op ∧ op.precedence = level ∧ run = [.operator op]

/-- A tree of a tighter level may stand where a looser one is asked for. -/
theorem Denotes.mono {level level' : Nat} {node : Node} {run : List Lexeme}
    (h : Denotes level node run) (hle : level' ≤ level) : Denotes level' node run := by
  obtain ⟨grouping, hgroups, hmeans⟩ := h
  exact ⟨grouping, hgroups.mono hle, hmeans⟩

/-- An operator of a level joins a tree of that level and one of a tighter one. -/
theorem Denotes.extend {level : Nat} {lhs rhs : Node} {kind : Kind} {first op second : List Lexeme}
    (hl : Denotes level lhs first) (hop : Joins level kind op)
    (hr : Denotes (level + 1) rhs second) :
    Denotes level (lhs.extend kind rhs) (first ++ (op ++ second)) := by
  obtain ⟨left, hleft, hmeans⟩ := hl
  obtain ⟨op, hkind, rfl, rfl⟩ := hop
  obtain ⟨right, hright, hmeans'⟩ := hr
  exact ⟨.binary op left right, .binary le_rfl hleft hright, hmeans.extend hkind hmeans'⟩

namespace Takes

variable {level : Nat} {op : Reader Kind} {operand inner : Reader Node}

/-- What an operator and an operand add to a tree. -/
def Adds (level : Nat) (next : Kind × Node) (run : List Lexeme) : Prop :=
  ∀ lhs first, Denotes level lhs first → Denotes level (lhs.extend next.1 next.2) (first ++ run)

/-- An operator and an operand add to a tree on the left of them. -/
theorem step (hop : Takes op .operator .operand (Joins level))
    (h : Takes operand .operand .operator (Denotes (level + 1))) :
    Takes (Reader.step op operand) .operator .operator (Adds level) := by
  refine bind hop fun kind first hkind => map _ h fun rhs second hrhs => ?_
  intro lhs run hlhs
  exact hlhs.extend hkind hrhs

/-- **A chain denotes a tree of its level**: operators group to the left. -/
theorem chain (hop : Takes op .operator .operand (Joins level))
    (h : Takes operand .operand .operator (Denotes (level + 1))) :
    Takes (Reader.chain operand op) .operand .operator (Denotes level) := by
  refine bind h fun first run hfirst => map _ (series (hop.step h) (R := fun steps more =>
    ∀ lhs run, Denotes level lhs run → Denotes level
      (steps.foldl (fun lhs step => lhs.extend step.1 step.2) lhs) (run ++ more)) ?_ ?_) ?_
  · intro lhs run hlhs
    rwa [List.append_nil]
  · intro next run steps more hnext hsteps lhs front hlhs
    rw [← List.append_assoc]
    exact hsteps _ _ (hnext lhs front hlhs)
  · intro steps more hsteps
    exact hsteps first run (hfirst.mono (Nat.le_succ level))

end Takes

/-- An operator at the front of a text, where no longer one is. -/
theorem scanOperator_token {op : Operator} {rest : List Char}
    (h : op = .condition .lt ∨ op = .condition .gt → ∀ more, rest ≠ '=' :: more) :
    scanOperator (op.token.toList ++ rest) = some (op, rest) := by
  rcases op with op | op <;> cases op
  case condition.lt =>
    show scanOperator ('<' :: rest) = _
    rw [scanOperator]
    exact h (.inl rfl)
  case condition.gt =>
    show scanOperator ('>' :: rest) = _
    rw [scanOperator]
    exact h (.inr rfl)
  all_goals simp [Operator.token, Arithmetic.token, Condition.token, scanOperator]

/-- **Operators of one level**, where a longer one is looked for before the one it starts with. -/
theorem takes_operator {α : Type} [DecidableEq α] {level : Nat} {symbol : Symbol}
    {spelling : α → String} {operators : List α} {kind : α → Kind} (toOperator : α → Operator)
    (hkind : ∀ op, (kind op).operator? = some (toOperator op))
    (hspelling : ∀ op, (toOperator op).token = spelling op)
    (hlevel : ∀ op ∈ operators, (toOperator op).precedence = level)
    (hlonger : ∀ op ∈ operators,
      toOperator op = .condition .lt ∨ toOperator op = .condition .gt →
        ∃ longer ∈ operators.takeWhile (· ≠ op), spelling longer = spelling op ++ "=") :
    Takes (do return kind (← Reader.operator symbol spelling operators)) .operator .operand
      (Joins level) := by
  refine Takes.map kind (P := fun op run => (toOperator op).precedence = level ∧
    run = [.operator (toOperator op)]) (.lexeme fun text op rest hread => ?_) ?_
  · obtain ⟨hmem, rfl, hothers⟩ := Reader.of_read_operator hread
    refine ⟨.operator (toOperator op), ?_, rfl, hlevel op hmem, rfl⟩
    rw [scan, ← hspelling, scanOperator_token, Option.map_some, Option.some_or]
    rintro hshort more rfl
    obtain ⟨longer, hbefore, hlong⟩ := hlonger op hmem hshort
    refine hothers longer hbefore more ?_
    rw [hlong, String.toList_append, List.append_assoc]
    rfl
  · rintro op run ⟨hop, rfl⟩
    exact ⟨toOperator op, hkind op, hop, rfl⟩

theorem takes_sumOp : Takes Reader.sumOp .operator .operand (Joins 4) :=
  takes_operator .arithmetic (fun _ => rfl) (fun _ => rfl) (by decide) (by simp)

theorem takes_productOp : Takes Reader.productOp .operator .operand (Joins 5) :=
  takes_operator .arithmetic (fun _ => rfl) (fun _ => rfl) (by decide) (by simp)

theorem takes_orOp : Takes Reader.orOp .operator .operand (Joins 1) :=
  takes_operator .condition (fun _ => rfl) (fun _ => rfl) (by decide) (by simp)

theorem takes_andOp : Takes Reader.andOp .operator .operand (Joins 2) :=
  takes_operator .condition (fun _ => rfl) (fun _ => rfl) (by decide) (by simp)

theorem takes_comparisonOp : Takes Reader.comparisonOp .operator .operand (Joins 3) :=
  takes_operator .condition (fun _ => rfl) (fun _ => rfl) (by decide) (by decide)

/-- A literal is one lexeme. -/
theorem takes_integer :
    Takes (do return .leaf .integer (← Reader.integer)) .operand .operator (Denotes 6) := by
  refine Takes.map _ (P := fun number run => IsInteger number ∧ run = [.literal number])
    (.lexeme fun text number rest hread => ?_) ?_
  · refine ⟨.literal number, ?_, rfl, (scanInteger_eq_some_iff.1 hread).2.1, rfl⟩
    rw [scan, show scanInteger text = _ from hread, Option.map_some, Option.some_or]
  · rintro number run ⟨hnumber, rfl⟩
    exact ⟨.literal number, .literal number, .integer hnumber⟩

/-- A variable is one lexeme. -/
theorem takes_variable :
    Takes (do return .leaf .reference (← Reader.named .variable Reader.identifier)) .operand
      .operator (Denotes 6) := by
  refine Takes.map _ (P := fun name run => run = [.name name])
    (.lexeme fun text name rest hread => ⟨.name name, ?_, rfl, rfl⟩) ?_
  · obtain ⟨rfl, hname, -⟩ := scanIdentifier_eq_some_iff.1 hread
    rw [scan, hname.scanInteger_append, show scanIdentifier (name.toList ++ rest) = _ from hread]
    rfl
  · rintro name run rfl
    exact ⟨.name name, .name name, .reference name⟩

/-- A single character is one lexeme. -/
theorem takes_text {expected : String} {c : Char} {before after : Place} (lexeme : Lexeme)
    (hc : expected.toList = [c])
    (hscan : ∀ rest, scan before (c :: rest) = some (lexeme, rest)) (hnext : lexeme.next = after) :
    Takes (Reader.text expected) before after fun _ run => run = [lexeme] := by
  refine .lexeme fun text value rest hread => ⟨lexeme, ?_, hnext, rfl⟩
  rw [Reader.text, Reader.read_silent, Option.map_eq_some_iff, hc] at hread
  obtain ⟨rest, hdrop, heq⟩ := hread
  obtain ⟨-, rfl⟩ := Prod.mk.inj heq
  rw [dropStart_eq_some_iff.1 hdrop]
  exact hscan rest

namespace Takes

variable {inner : Reader Node}

/-- An atom binds tightest, parentheses included. -/
theorem atom (h : Takes inner .operand .operator (Denotes 0)) :
    Takes (Reader.atom inner) .operand .operator (Denotes 6) := by
  refine orElse takes_integer (orElse takes_variable ?_)
  refine bind (takes_text .opening rfl (fun _ => rfl) rfl) fun _ run hopening => ?_
  refine bind h fun node inside hinside => ?_
  refine map (fun _ => node) (takes_text .closing rfl (fun _ => rfl) rfl) fun _ last hlast => ?_
  obtain ⟨grouping, hgroups, hmeans⟩ := hinside
  subst hopening hlast
  exact ⟨grouping, .parenthesized hgroups, hmeans⟩

/-- At most one comparison joins two sums. -/
theorem comparison (h : Takes (Reader.sum inner) .operand .operator (Denotes 4)) :
    Takes (Reader.comparison inner) .operand .operator (Denotes 3) := by
  refine bind h fun lhs run hlhs => ?_
  have hlhs : Denotes 3 lhs run := hlhs.mono (Nat.le_succ 3)
  refine optional (takes_comparisonOp.step h) (R := fun next more =>
    Denotes 3 (next.elim lhs fun step => lhs.extend step.1 step.2) (run ++ more)) ?_ ?_
    |>.result fun next => ?_
  · rwa [List.append_nil]
  · intro next more hnext
    exact hnext lhs run hlhs
  · rcases next with _ | ⟨kind, rhs⟩
    · exact ⟨lhs, rfl, fun _ h => h⟩
    · exact ⟨lhs.extend kind rhs, rfl, fun _ h => h⟩

/-- Disjunctions of conjunctions of comparisons denote trees of the loosest level. -/
theorem disjunction (h : Takes inner .operand .operator (Denotes 0)) :
    Takes (Reader.disjunction inner) .operand .operator (Denotes 1) :=
  chain takes_orOp (chain takes_andOp (comparison
    (chain takes_sumOp (chain takes_productOp (atom h)))))

end Takes

/-- Expressions of each depth take the lexemes of their trees. -/
theorem takes_expressionWithin (depth : Nat) :
    Takes (Reader.expressionWithin depth) .operand .operator (Denotes 0) := by
  induction depth with
  | zero =>
    intro text value rest hread
    cases hread
  | succ depth ih => exact (Takes.disjunction ih).mono fun _ _ h => h.mono (Nat.zero_le 1)

/-- No expression starts in a gap. -/
theorem dropGap_of_expressionWithin {depth : Nat} {text : List Char} {result : Node × List Char}
    (h : (Reader.expressionWithin depth).read text = some result) :
    dropGap .blanks text = text := by
  have hfirst : ∀ {α β : Type} {reader : Reader α} {next : α → Reader β} {result : β × List Char},
      (reader >>= next).read text = some result → ∃ first, reader.read text = some first := by
    intro α β reader next result hread
    rw [Reader.read_bind, Option.bind_eq_some_iff] at hread
    obtain ⟨first, hfirst, -⟩ := hread
    exact ⟨first, hfirst⟩
  rcases depth with _ | depth
  · cases h
  -- from the loosest level down to the first operand
  obtain ⟨_, hconjunction⟩ := hfirst h
  obtain ⟨_, hcomparison⟩ := hfirst hconjunction
  obtain ⟨_, hsum⟩ := hfirst hcomparison
  obtain ⟨_, hproduct⟩ := hfirst hsum
  obtain ⟨_, hatom⟩ := hfirst hproduct
  rw [Reader.atom, Reader.read_orElse, Option.or_eq_some_iff, Reader.read_orElse,
    Option.or_eq_some_iff] at hatom
  rcases hatom with hread | ⟨-, hread | ⟨-, hread⟩⟩
  · obtain ⟨_, hread⟩ := hfirst hread
    obtain ⟨rfl, hnumber, -⟩ := scanInteger_eq_some_iff.1 hread
    exact hnumber.dropGap_append _
  · obtain ⟨_, hread⟩ := hfirst hread
    obtain ⟨rfl, hname, -⟩ := scanIdentifier_eq_some_iff.1 hread
    exact hname.dropGap_append _
  · obtain ⟨_, hread⟩ := hfirst hread
    obtain ⟨rest, hdrop, -⟩ := Option.map_eq_some_iff.1 hread
    rw [dropStart_eq_some_iff.1 hdrop]
    exact dropGap_of_plain rfl (by decide) rest

/-- **Operators mean the same in a pattern file and in C.**  The lexemes of an expression have one
grouping.  Its tree has a C text, and C reads that text with the same grouping, each variable as the
local that holds it. -/
theorem expression_text_keeps_grouping {text rest : List Char} {node : Node}
    (h : Reader.expression.read text = some (node, rest)) :
    ∃ (run : List Lexeme) (grouping : Grouping) (expr : Expr),
      lexemes .operand text = run ++ lexemes .operator rest ∧
      (∀ other, Groups 0 run other ↔ other = grouping) ∧
      node.toExpr = .ok expr ∧
      (Term.ofText? expr.text).bind Term.grouping? = some (grouping.rename argumentLocal) := by
  have hexpression : IsExpression node := yields_expression _ _ _ h
  rw [Reader.expression, Reader.read_nested] at h
  have hsettled := dropGap_of_expressionWithin h
  nth_rewrite 2 [← hsettled] at h
  obtain ⟨run, hrun, grouping, hgroups, expr, hexpr, hterm⟩ := takes_expressionWithin _ _ _ _ h
  refine ⟨run, grouping, expr, hrun, ?_, hexpr, ?_⟩
  · intro other
    constructor
    · exact fun hother => hother.unique hgroups
    · rintro rfl
      exact hgroups
  · rw [(expr.spells_text (hexpression.readable hexpr)).term.ofText?, Option.bind_some, hterm]

/-- `a - -1 * (b < c) < d` -/
def Nested.tree : Node :=
  .branch (.condition .lt)
    [.branch (.arithmetic .sub)
        [.leaf .reference "a",
          .branch (.arithmetic .mul)
            [.leaf .integer "-1",
              .branch (.condition .lt) [.leaf .reference "b", .leaf .reference "c"]]],
      .leaf .reference "d"]

/-- An expression with a sign, parentheses and three levels keeps its grouping. -/
theorem expression_text_keeps_grouping_nested :
    Reader.expression.read "a - -1 * (b < c) < d".toList = some (Nested.tree, []) ∧
      ∃ (run : List Lexeme) (grouping : Grouping) (expr : Expr),
        lexemes .operand "a - -1 * (b < c) < d".toList = run ++ lexemes .operator [] ∧
        (∀ other, Groups 0 run other ↔ other = grouping) ∧
        Nested.tree.toExpr = .ok expr ∧
        (Term.ofText? expr.text).bind Term.grouping? = some (grouping.rename argumentLocal) :=
  ⟨by decide +kernel, expression_text_keeps_grouping (by decide +kernel)⟩

end Peephole

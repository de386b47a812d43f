import Mathlib.Tactic.IntervalCases
import Peephole.Proofs.Grammar.Precedence
import Peephole.Proofs.Grammar.Reading
import Peephole.Proofs.Grammar.TreeLanguage

/-!
# Proofs/Grammar/Spelling — a text for every tree, and reading expressions back from it

`Node.spelling` writes a tree with as few blanks and as many parentheses as it takes to be read back
without thought: whatever stands before or after an operator is in parentheses, so precedence never
matters, and a run of operands is written as one operator applied to the run before it, which is
what `Node.extend` merges again.

`IsExpression.spells` is the half about expressions.
-/

namespace Peephole

/-! ## A text for every tree -/

namespace Node

/-- Operands under one operator, with what stands before an operator in parentheses. -/
def chainSpelling (op : Operator) : List (List Char) → List Char
  | [] => []
  | first :: texts =>
    texts.foldl (fun front text =>
      '(' :: (front ++ ')' :: (op.token.toList ++ '(' :: (text ++ [')'])))) first

/-- What a match element asks for, and the names of its arguments, if it is no wildcard. -/
def elementSpelling : List (List Char) → List Char
  | [] => []
  | body :: captures => if body = ['_'] then body else body ++ inParentheses captures

/-- What follows the name of an instruction in a statement. -/
def argumentList : List (List Char) → List Char
  | [] => [';']
  | texts => inParentheses texts ++ [';']

mutual

/-- A text of a tree. -/
def spelling : Node → List Char
  | mk kind text children =>
    match kind, spellings children with
    | .program, parts => parts.flatten
    | .declaration, parts => "set".toList ++ ' ' :: (['='].intercalate parts ++ [';'])
    | .instructionSet, parts => '\x7b' :: ([','].intercalate parts ++ ['\x7d'])
    | .rule, parts =>
      "pattern".toList ++ ' ' :: (text.toList ++ ':' :: "-->".toList.intercalate parts)
    | .pattern, parts => [' '].intercalate parts
    | .namedElement, parts => text.toList ++ ':' :: elementSpelling parts
    | .unnamedElement, parts => elementSpelling parts
    | .wildcard, _ => ['_']
    | .replacement, parts | .elseClause, parts => inBraces parts
    | .construct, arguments => text.toList ++ argumentList arguments
    | .reuse, _ => text.toList ++ argumentList []
    | .switch, name :: clauses => "switch".toList ++ '(' :: (name ++ ')' :: inBraces clauses)
    | .caseClause, parts =>
      (if text = "default" then text.toList else "case".toList ++ ' ' :: text.toList)
        ++ ':' :: inBraces parts
    | .ifChain, clauses => "else".toList.intercalate clauses
    | .ifClause, condition :: parts => "if".toList ++ '(' :: (condition ++ ')' :: inBraces parts)
    | .arithmetic op, operands => chainSpelling (.arithmetic op) operands
    | .condition op, operands => chainSpelling (.condition op) operands
    | _, _ => text.toList

/-- Texts of trees. -/
def spellings : List Node → List (List Char)
  | [] => []
  | node :: nodes => spelling node :: spellings nodes

end

theorem spellings_eq (nodes : List Node) : spellings nodes = nodes.map spelling := by
  induction nodes with
  | nil => rfl
  | cons node nodes ih => rw [spellings, ih, List.map_cons]

end Node

/-! ## Expressions

`tier` counts the levels of an expression from the tightest on, and `tierOp` their operators.  An
operand in parentheses passes through every level whose operator does not follow it, so a text with
one operator between two such operands is read at the level of that operator. -/

namespace Reader

/-- The levels of an expression. -/
def tier (inner : Reader Node) : Nat → Reader Node
  | 0 => atom inner
  | 1 => product inner
  | 2 => sum inner
  | 3 => comparison inner
  | 4 => conjunction inner
  | _ => disjunction inner

/-- The operators between the operands of a level. -/
def tierOp : Nat → Reader Kind
  | 0 => productOp
  | 1 => sumOp
  | 2 => comparisonOp
  | 3 => andOp
  | _ => orOp

variable {inner operand : Reader Node} {op : Reader Kind} {text middle last rest : List Char}
  {node lhs rhs : Node} {kind : Kind}

theorem read_chain_pass (h : operand.read text = some (node, rest)) (hsettled : Settled rest)
    (hop : op.read rest = none) : (chain operand op).read text = some (node, rest) := by
  refine read_then h (read_then (read_gap_of_settled hsettled) ?_)
  exact read_then (read_orElse_right (read_stop (read_stop hop))) rfl

theorem read_step (hop : op.read middle = some (kind, last)) (hlast : Settled last)
    (hrhs : operand.read last = some (rhs, rest)) :
    (step op operand).read middle = some ((kind, rhs), rest) :=
  read_then hop (read_then (read_gap_of_settled hlast) (read_then hrhs rfl))

/-- Two operands with one operator between them are a chain. -/
theorem read_chain_step (hlhs : operand.read text = some (lhs, middle)) (hmiddle : Settled middle)
    (hstep : (step op operand).read middle = some ((kind, rhs), rest)) (hsettled : Settled rest)
    (hend : op.read rest = none) :
    (chain operand op).read text = some (lhs.extend kind rhs, rest) := by
  have hrefused : (do gap; step op operand : Reader (Kind × Node)).read rest = none :=
    read_then (read_gap_of_settled hsettled) (read_stop hend)
  have hmany : (many (do gap; step op operand)).read rest = some ([], rest) := by
    rw [read_many, readMany_of_refused hrefused]
  refine read_then hlhs (read_then (read_gap_of_settled hmiddle) ?_)
  exact read_then (read_orElse_left (read_then hstep (read_then hmany rfl))) rfl

theorem read_comparison_pass (h : (sum inner).read text = some (node, rest))
    (hsettled : Settled rest) (hop : comparisonOp.read rest = none) :
    (comparison inner).read text = some (node, rest) := by
  refine read_then h (read_then (read_gap_of_settled hsettled) ?_)
  exact read_then (read_optional_none (read_stop hop)) rfl

/-- Two sums with a comparison operator between them are a comparison. -/
theorem read_comparison_step (hlhs : (sum inner).read text = some (lhs, middle))
    (hmiddle : Settled middle)
    (hstep : (step comparisonOp (sum inner)).read middle = some ((kind, rhs), rest)) :
    (comparison inner).read text = some (lhs.extend kind rhs, rest) := by
  refine read_then hlhs (read_then (read_gap_of_settled hmiddle) ?_)
  exact read_then (read_optional_some hstep) rfl

/-- What is read at one tier is read at the next looser one, if no operator of it follows. -/
theorem read_tier_pass {t : Nat} (ht : t < 5) (h : (tier inner t).read text = some (node, rest))
    (hsettled : Settled rest) (hop : (tierOp t).read rest = none) :
    (tier inner (t + 1)).read text = some (node, rest) := by
  interval_cases t
  · exact read_chain_pass h hsettled hop
  · exact read_chain_pass h hsettled hop
  · exact read_comparison_pass h hsettled hop
  · exact read_chain_pass h hsettled hop
  · exact read_chain_pass h hsettled hop

/-- An operator of a tier joins two operands of the tighter one. -/
theorem read_tier_step {t : Nat} (ht : t < 5) (hlhs : (tier inner t).read text = some (lhs, middle))
    (hmiddle : Settled middle)
    (hstep : (step (tierOp t) (tier inner t)).read middle = some ((kind, rhs), rest))
    (hsettled : Settled rest) (hend : (tierOp t).read rest = none) :
    (tier inner (t + 1)).read text = some (lhs.extend kind rhs, rest) := by
  interval_cases t
  · exact read_chain_step hlhs hmiddle hstep hsettled hend
  · exact read_chain_step hlhs hmiddle hstep hsettled hend
  · exact read_comparison_step hlhs hmiddle hstep
  · exact read_chain_step hlhs hmiddle hstep hsettled hend
  · exact read_chain_step hlhs hmiddle hstep hsettled hend

/-- What is read at one tier is read at each looser one, if no operator in between follows. -/
theorem read_tier_climb {t u : Nat} (htu : t ≤ u) (hu : u ≤ 5)
    (h : (tier inner t).read text = some (node, rest)) (hsettled : Settled rest)
    (hop : ∀ i, t ≤ i → i < u → (tierOp i).read rest = none) :
    (tier inner u).read text = some (node, rest) := by
  induction u, htu using Nat.le_induction with
  | base => exact h
  | succ u htu ih =>
    refine read_tier_pass (by omega) (ih (by omega) fun i hi hlt => hop i hi (by omega)) hsettled ?_
    exact hop u htu (by omega)

/-- The operators of the levels, before an opening parenthesis. -/
theorem read_tierOp {t : Nat} (ht : t < 5) {op : Operator} (hop : kind.operator? = some op)
    (rest : List Char) :
    (tierOp t).read (op.token.toList ++ '(' :: rest)
      = if t + op.precedence = 5 then some (kind, '(' :: rest) else none := by
  cases kind <;> cases hop <;> rename_i op <;> cases op <;> interval_cases t <;> rfl

end Reader

/-- What may follow an expression: the end of a pair of parentheses, or a comma. -/
def Closes (text : List Char) : Prop := ∃ c rest, text = c :: rest ∧ (c = ')' ∨ c = ',')

theorem closes_rparen (rest : List Char) : Closes (')' :: rest) := ⟨_, rest, rfl, .inl rfl⟩

theorem closes_comma (rest : List Char) : Closes (',' :: rest) := ⟨_, rest, rfl, .inr rfl⟩

theorem Closes.settled {text : List Char} (h : Closes text) : Settled text := by
  obtain ⟨c, rest, rfl, rfl | rfl⟩ := h
  · exact settled_cons rfl (by decide) rest
  · exact settled_cons rfl (by decide) rest

theorem Closes.read_tierOp {text : List Char} (h : Closes text) {t : Nat} (ht : t < 5) :
    (Reader.tierOp t).read text = none := by
  obtain ⟨c, rest, rfl, rfl | rfl⟩ := h <;> interval_cases t <;> rfl

theorem Closes.noMore {text : List Char} (h : Closes text) : NoMore isWordChar text := by
  obtain ⟨c, rest, rfl, rfl | rfl⟩ := h
  · exact noMore_cons rfl rest
  · exact noMore_cons rfl rest

/-- No operator with a parenthesis behind it starts a comment, not even `/`. -/
theorem solid_token (op : Operator) : Solid (op.token.toList ++ ['(']) := by
  rcases op with op | op <;> cases op <;> intro rest <;> rfl

/-- Every operator has a level. -/
theorem Operator.exists_tier (op : Operator) : ∃ t, t + op.precedence = 5 ∧ t < 5 := by
  rcases op with op | op <;> cases op <;> exact ⟨_, rfl, by decide⟩

/-- The text is an expression with this tree. -/
structure SpellsExpression (text : List Char) (node : Node) : Prop where
  solid : Solid text
  reads : ∀ depth, text.length < depth → Reads (Reader.expressionWithin depth) text node Closes

namespace SpellsExpression

variable {text text' : List Char} {node lhs rhs : Node}

/-- What is read as an atom is read as an expression of each tier. -/
theorem of_atom (hsolid : Solid text)
    (h : ∀ inner rest, Closes rest → (Reader.atom inner).read (text ++ rest) = some (node, rest)) :
    SpellsExpression text node where
  solid := hsolid
  reads depth hdepth rest hrest := by
    obtain ⟨depth, rfl⟩ : ∃ n, depth = n + 1 := ⟨depth - 1, by omega⟩
    exact Reader.read_tier_climb (Nat.zero_le 5) le_rfl (h _ rest hrest) hrest.settled
      fun i _ hi => hrest.read_tierOp hi

/-- A literal reads back as an expression. -/
theorem integer {number : String} (h : IsInteger number) :
    SpellsExpression number.toList (.leaf .integer number) := by
  refine of_atom h.solid fun inner rest hrest => ?_
  refine Reader.read_orElse_left (Reader.read_then (scanInteger_eq_some_iff.2 ⟨rfl, h, ?_⟩) rfl)
  intro c hc
  by_contra hdigit
  have hword := hrest.noMore c hc
  rw [isWordChar_of_isDigit (by simpa using hdigit)] at hword
  cases hword

theorem reference {name : String} (h : IsIdentifier name) :
    SpellsExpression name.toList (.leaf .reference name) := by
  refine of_atom h.solid fun inner rest hrest => ?_
  refine (Reader.read_orElse_right (Reader.read_stop (h.scanInteger_append rest))).trans ?_
  exact Reader.read_orElse_left (Reader.read_then (Reader.read_identifier h hrest.noMore) rfl)

/-- An expression in parentheses is an operand. -/
theorem read_atom (h : SpellsExpression text node) (depth : Nat) (hdepth : text.length < depth)
    (rest : List Char) :
    (Reader.atom (Reader.expressionWithin depth)).read ('(' :: (text ++ ')' :: rest))
      = some (node, rest) := by
  refine (Reader.read_orElse_right rfl).trans ((Reader.read_orElse_right rfl).trans ?_)
  refine Reader.read_then (Reader.read_char rfl _) ?_
  refine Reader.read_then (Reader.read_gap_of_settled (h.solid _)) ?_
  refine Reader.read_then (h.reads depth hdepth _ (closes_rparen rest)) ?_
  refine Reader.read_then (Reader.read_gap_of_settled (closes_rparen rest).settled) ?_
  exact Reader.read_then (Reader.read_char rfl rest) rfl

/-- **Two expressions in parentheses with an operator between them.** -/
theorem extend {kind : Kind} {op : Operator} (hop : kind.operator? = some op)
    (hl : SpellsExpression text lhs) (hr : SpellsExpression text' rhs) :
    SpellsExpression ('(' :: (text ++ ')' :: (op.token.toList ++ '(' :: (text' ++ [')']))))
      (lhs.extend kind rhs) where
  solid := solid_cons rfl (by decide) _
  reads depth hdepth rest hrest := by
    obtain ⟨depth, rfl⟩ : ∃ n, depth = n + 1 := ⟨depth - 1, by omega⟩
    simp only [List.length_cons, List.length_append] at hdepth
    simp only [List.cons_append, List.append_assoc, List.nil_append]
    have hmiddle : Settled (op.token.toList ++ '(' :: (text' ++ ')' :: rest)) := by
      simpa using solid_token op (text' ++ ')' :: rest)
    have hparen : Settled ('(' :: (text' ++ ')' :: rest)) := settled_cons rfl (by decide) _
    -- tighter levels pass both operands, the operator's level joins them, looser ones pass that
    obtain ⟨t, hlevel, ht⟩ := op.exists_tier
    have hlhs := Reader.read_tier_climb (Nat.zero_le t) ht.le
      (hl.read_atom depth (by omega) _) hmiddle fun i _ hi => by
        rw [Reader.read_tierOp (by omega) hop, if_neg (by omega)]
    have hrhs := Reader.read_tier_climb (Nat.zero_le t) ht.le
      (hr.read_atom depth (by omega) rest) hrest.settled
      fun i _ hi => hrest.read_tierOp (by omega)
    have hop : (Reader.tierOp t).read (op.token.toList ++ '(' :: (text' ++ ')' :: rest))
        = some (kind, '(' :: (text' ++ ')' :: rest)) := by
      rw [Reader.read_tierOp ht hop, if_pos hlevel]
    have hjoined := Reader.read_tier_step ht hlhs hmiddle (Reader.read_step hop hparen hrhs)
      hrest.settled (hrest.read_tierOp ht)
    exact Reader.read_tier_climb ht le_rfl hjoined hrest.settled fun i _ hi => hrest.read_tierOp hi

/-- Operands one after the other, the first of which is no run of the same operator. -/
theorem chain {kind : Kind} {op : Operator} (hop : kind.operator? = some op) {first : Node}
    (hkind : first.kind ≠ kind) (hfirst : SpellsExpression first.spelling first) {more : List Node}
    (hne : more ≠ []) (hmore : ∀ operand ∈ more, SpellsExpression operand.spelling operand) :
    SpellsExpression (Node.chainSpelling op (Node.spellings (first :: more)))
      (.branch kind (first :: more)) := by
  induction more using List.reverseRecOn with
  | nil => exact absurd rfl hne
  | append_singleton init last ih =>
    obtain ⟨hinit, hlast⟩ := List.forall_mem_append.1 hmore
    have hlast := hlast last (List.mem_singleton_self last)
    have hspelling : Node.chainSpelling op (Node.spellings (first :: (init ++ [last])))
        = '(' :: (Node.chainSpelling op (Node.spellings (first :: init))
          ++ ')' :: (op.token.toList ++ '(' :: (last.spelling ++ [')']))) := by
      simp [Node.chainSpelling, Node.spellings_eq]
    rw [hspelling]
    by_cases hnil : init = []
    · subst hnil
      have hjoined := hfirst.extend hop hlast
      rwa [Node.extend, if_neg fun h => hkind h.1] at hjoined
    · have htwo : 2 ≤ (first :: init).length := by
        have := List.length_pos_iff.2 hnil
        rw [List.length_cons]
        omega
      have hjoined := (ih hnil hinit).extend hop hlast
      rwa [Node.extend, if_pos ⟨rfl, htwo⟩] at hjoined

end SpellsExpression

/-- **Every expression is read from its spelling.** -/
theorem IsExpression.spells {node : Node} (h : IsExpression node) :
    SpellsExpression node.spelling node := by
  induction h with
  | integer h => exact .integer h
  | reference h => exact .reference h
  | @operation kind op operands hop two all first ih =>
    obtain ⟨operand, second, more, rfl⟩ : ∃ operand second more,
        operands = operand :: second :: more := by
      match operands, two with
      | operand :: second :: more, _ => exact ⟨operand, second, more, rfl⟩
    obtain ⟨hoperand, hmore⟩ := List.forall_mem_cons.1 ih
    have hchain := SpellsExpression.chain hop (first operand rfl) hoperand
      (List.cons_ne_nil second more) hmore
    cases kind <;> cases hop <;> exact hchain

theorem SpellsExpression.expression {text : List Char} {node : Node}
    (h : SpellsExpression text node) : Reads Reader.expression text node Closes :=
  fun rest hrest =>
    h.reads ((text ++ rest).length + 1) (by rw [List.length_append]; omega) rest hrest

end Peephole

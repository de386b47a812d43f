import Peephole.Proofs.Grammar.Lexeme
import Peephole.Tree.Operator

/-!
# Proofs/Grammar/Precedence — how the operators of an expression group their operands

An expression is read in two steps that know nothing of trees with many operands.  Its text is a run
of lexemes: after an operand a `-` is an operator, anywhere else it belongs to the number after it.
The lexemes are grouped by precedence and from the left, and parentheses override both:

    or 1      and 2      comparisons 3      sums 4      products 5

`Groups level lexemes grouping` is this grammar as a relation.  It is unambiguous
(`Groups.unique`), so an expression has at most one grouping.
-/

namespace Peephole

/-! ## Lexemes -/

/-- A lexeme of an expression. -/
inductive Lexeme where
  | literal (text : String)
  | name (text : String)
  | operator (op : Operator)
  | opening
  | closing
deriving DecidableEq, Repr

/-- What a lexeme is looked for in place of. -/
inductive Place where
  | operand
  | operator
deriving DecidableEq, Repr

namespace Lexeme

/-- What comes after a lexeme. -/
def next : Lexeme → Place
  | literal _ | name _ | closing => .operator
  | operator _ | opening => .operand

/-- The operator at the front of a text, the longest that fits. -/
def scanOperator : List Char → Option (Operator × List Char)
  | '|' :: '|' :: rest => some (.condition .or, rest)
  | '&' :: '&' :: rest => some (.condition .and, rest)
  | '=' :: '=' :: rest => some (.condition .eq, rest)
  | '!' :: '=' :: rest => some (.condition .ne, rest)
  | '<' :: '=' :: rest => some (.condition .le, rest)
  | '>' :: '=' :: rest => some (.condition .ge, rest)
  | '<' :: rest => some (.condition .lt, rest)
  | '>' :: rest => some (.condition .gt, rest)
  | '+' :: rest => some (.arithmetic .add, rest)
  | '-' :: rest => some (.arithmetic .sub, rest)
  | '*' :: rest => some (.arithmetic .mul, rest)
  | '/' :: rest => some (.arithmetic .div, rest)
  | '%' :: rest => some (.arithmetic .rem, rest)
  | _ => none

/-- The lexeme at the front of a text. -/
def scan : Place → List Char → Option (Lexeme × List Char)
  | .operand, text =>
    ((scanInteger text).map fun (number, rest) => (literal number, rest)).or
      (((scanIdentifier text).map fun (word, rest) => (name word, rest)).or
        ((dropStart ['('] text).map (opening, ·)))
  | .operator, text =>
    ((scanOperator text).map fun (op, rest) => (operator op, rest)).or
      ((dropStart [')'] text).map (closing, ·))

/-- An operator is scanned where it is spelled. -/
theorem eq_of_scanOperator {text rest : List Char} {op : Operator}
    (h : scanOperator text = some (op, rest)) : text = op.token.toList ++ rest := by
  rw [scanOperator.eq_def] at h
  split at h
  all_goals
    cases h
    try simp [Operator.token, Condition.token, Arithmetic.token]

theorem toList_token_ne_nil (op : Operator) : op.token.toList ≠ [] := by
  rcases op with op | op <;> cases op <;> decide

/-- What follows a lexeme is shorter than what it stands at the front of. -/
theorem length_of_scan {place : Place} {text rest : List Char} {lexeme : Lexeme}
    (h : scan place text = some (lexeme, rest)) : rest.length < text.length := by
  rcases place with _ | _
  · rw [scan, Option.or_eq_some_iff, Option.or_eq_some_iff] at h
    simp only [Option.map_eq_some_iff, Prod.exists, Prod.mk.injEq] at h
    rcases h with ⟨number, rest, h, -, rfl⟩ | ⟨-, ⟨word, rest, h, -, rfl⟩ | ⟨-, rest, h, -, rfl⟩⟩
    · obtain ⟨rfl, hnumber, -⟩ := scanInteger_eq_some_iff.1 h
      simp [List.length_pos_iff.2 hnumber.toList_ne_nil]
    · obtain ⟨rfl, hword, -⟩ := scanIdentifier_eq_some_iff.1 h
      obtain ⟨c, more, hword, -⟩ := hword.start
      rw [hword, List.length_append, List.length_cons]
      omega
    · simp [dropStart_eq_some_iff.1 h]
  · rw [scan, Option.or_eq_some_iff] at h
    simp only [Option.map_eq_some_iff, Prod.exists, Prod.mk.injEq] at h
    rcases h with ⟨op, rest, h, -, rfl⟩ | ⟨-, rest, h, -, rfl⟩
    · simp [eq_of_scanOperator h, List.length_pos_iff.2 (toList_token_ne_nil op)]
    · simp [dropStart_eq_some_iff.1 h]

end Lexeme

/-- The lexemes of the expression at the front of a text, up to where it cannot go on. -/
def lexemes (place : Place) (text : List Char) : List Lexeme :=
  match _h : Lexeme.scan place (dropGap .blanks text) with
  | none => []
  | some (lexeme, rest) => lexeme :: lexemes lexeme.next rest
termination_by text.length
decreasing_by exact (Lexeme.length_of_scan _h).trans_le (length_dropGap_le text)

example : lexemes .operand "a-1 * -1)".toList
    = [.name "a", .operator (.arithmetic .sub), .literal "1", .operator (.arithmetic .mul),
      .literal "-1", .closing] := by decide +kernel

/-! ## Groupings -/

/-- An expression in which every operator has two operands. -/
inductive Grouping where
  | literal (text : String)
  | name (text : String)
  | binary (op : Operator) (lhs rhs : Grouping)
deriving DecidableEq, Repr

/-- How tightly an operator binds. -/
def Operator.precedence : Operator → Nat
  | .condition .or => 1
  | .condition .and => 2
  | .condition _ => 3
  | .arithmetic .add | .arithmetic .sub => 4
  | .arithmetic _ => 5

/-- **Grouping by precedence, from the left**: outside of parentheses, no operator binds less
tightly than `level`. -/
inductive Groups : Nat → List Lexeme → Grouping → Prop where
  | literal {level : Nat} (text : String) : Groups level [.literal text] (.literal text)
  | name {level : Nat} (text : String) : Groups level [.name text] (.name text)
  | parenthesized {level : Nat} {inner : List Lexeme} {grouping : Grouping}
    (h : Groups 0 inner grouping) : Groups level (.opening :: (inner ++ [.closing])) grouping
  | binary {level : Nat} {op : Operator} {lhs rhs : List Lexeme} {left right : Grouping}
    (hlevel : level ≤ op.precedence) (hlhs : Groups op.precedence lhs left)
    (hrhs : Groups (op.precedence + 1) rhs right) :
    Groups level (lhs ++ .operator op :: rhs) (.binary op left right)

namespace Groups

/-- What groups at a tighter level groups at a looser one. -/
theorem mono {level level' : Nat} {run : List Lexeme} {grouping : Grouping}
    (h : Groups level run grouping) (hle : level' ≤ level) : Groups level' run grouping := by
  rcases h with text | text | h | ⟨hlevel, hlhs, hrhs⟩
  · exact .literal text
  · exact .name text
  · exact .parenthesized h
  · exact .binary (hle.trans hlevel) hlhs hrhs

/-! ### Parentheses -/

/-- The number of parentheses that are open after a run of lexemes. -/
def depth : List Lexeme → Int
  | [] => 0
  | .opening :: run => 1 + depth run
  | .closing :: run => -1 + depth run
  | _ :: run => depth run

@[simp] theorem depth_nil : depth [] = 0 := rfl

@[simp] theorem depth_opening (run : List Lexeme) : depth (.opening :: run) = 1 + depth run := rfl

@[simp] theorem depth_closing (run : List Lexeme) : depth (.closing :: run) = -1 + depth run := rfl

@[simp] theorem depth_operator (op : Operator) (run : List Lexeme) :
    depth (.operator op :: run) = depth run :=
  rfl

@[simp] theorem depth_append (first second : List Lexeme) :
    depth (first ++ second) = depth first + depth second := by
  induction first with
  | nil => exact (Int.zero_add _).symm
  | cons lexeme first ih => cases lexeme <;> simp [depth, ih, Int.add_assoc]

/-- Parentheses are balanced in what groups. -/
theorem depth_eq_zero {level : Nat} {run : List Lexeme} {grouping : Grouping}
    (h : Groups level run grouping) : depth run = 0 := by
  induction h with
  | literal text => rfl
  | name text => rfl
  | parenthesized _ ih => simp [ih]
  | binary _ _ _ ihl ihr => simp [ihl, ihr]

/-- The front of an expression closes no more than it opened. -/
theorem depth_front {level : Nat} {run : List Lexeme} {grouping : Grouping}
    (h : Groups level run grouping) {front back : List Lexeme} (heq : run = front ++ back) :
    0 ≤ depth front := by
  induction h generalizing front back with
  | literal text =>
    obtain ⟨rfl, -⟩ | ⟨rfl, -⟩ := List.append_eq_singleton_iff.1 heq.symm <;> simp [depth]
  | name text =>
    obtain ⟨rfl, -⟩ | ⟨rfl, -⟩ := List.append_eq_singleton_iff.1 heq.symm <;> simp [depth]
  | parenthesized h ih =>
    obtain ⟨rfl, -⟩ | ⟨rest, rfl, hrest⟩ := List.cons_eq_append_iff.1 heq
    · simp
    · obtain ⟨more, rfl, hmore⟩ | ⟨more, hinner, -⟩ := List.append_eq_append_iff.1 hrest
      · obtain ⟨rfl, -⟩ | ⟨last, rfl, hlast⟩ := List.cons_eq_append_iff.1 hmore
        · simp [h.depth_eq_zero]
        · simp [h.depth_eq_zero, (List.append_eq_nil_iff.1 hlast.symm).1]
      · have := ih hinner
        rw [depth_opening]
        omega
  | binary _ hlhs _ ihl ihr =>
    obtain ⟨more, rfl, hmore⟩ | ⟨more, hleft, -⟩ := List.append_eq_append_iff.1 heq
    · obtain ⟨rfl, -⟩ | ⟨rest, rfl, hrest⟩ := List.cons_eq_append_iff.1 hmore
      · simp [hlhs.depth_eq_zero]
      · simpa [hlhs.depth_eq_zero] using ihr hrest
    · exact ihl hleft

/-- **Outside of parentheses, every operator of an expression binds at least as tightly as its
level.** -/
theorem level_le {level : Nat} {run : List Lexeme} {grouping : Grouping}
    (h : Groups level run grouping) {front back : List Lexeme} {op : Operator}
    (heq : run = front ++ .operator op :: back) (hdepth : depth front = 0) :
    level ≤ op.precedence := by
  induction h generalizing front back with
  | literal text =>
    obtain ⟨-, hop⟩ | ⟨-, hop⟩ := List.append_eq_singleton_iff.1 heq.symm <;> simp at hop
  | name text =>
    obtain ⟨-, hop⟩ | ⟨-, hop⟩ := List.append_eq_singleton_iff.1 heq.symm <;> simp at hop
  | parenthesized h _ =>
    obtain ⟨-, hop⟩ | ⟨rest, rfl, hrest⟩ := List.cons_eq_append_iff.1 heq
    · simp at hop
    · obtain ⟨-, hop, -⟩ | ⟨mid, -, hmid⟩ | ⟨mid, hinner, -⟩ := append_cons_cases hrest
      · simp at hop
      · simp at hmid
      · have := h.depth_front hinner
        rw [depth_opening] at hdepth
        omega
  | binary hlevel hlhs _ ihl ihr =>
    obtain ⟨-, hop, -⟩ | ⟨mid, rfl, hrhs⟩ | ⟨mid, hlhs', -⟩ := append_cons_cases heq
    · obtain rfl := Lexeme.operator.inj hop
      exact hlevel
    · rw [depth_append, depth_operator, hlhs.depth_eq_zero, Int.zero_add] at hdepth
      have := ihr hrhs hdepth
      omega
    · exact hlevel.trans (ihl hlhs' hdepth)

/-- What has every level has no operator outside of parentheses. -/
theorem no_operator {run front back : List Lexeme} {grouping : Grouping} {op : Operator}
    (h : Groups (op.precedence + 1) run grouping) (heq : run = front ++ .operator op :: back)
    (hdepth : depth front = 0) : False :=
  absurd (h.level_le heq hdepth) (Nat.not_succ_le_self _)

/-- Of two operators, not each can be in an operand of the other: the second one binds more tightly
if it stands in the right operand of the first, and not if the first stands in its left one. -/
theorem no_crossing {first second : Operator} {lhs mid rhs : List Lexeme}
    {left right outer : Grouping} (hleft : Groups first.precedence lhs left)
    (hright : Groups (first.precedence + 1) (mid ++ .operator second :: rhs) right)
    (houter : Groups second.precedence (lhs ++ .operator first :: mid) outer) : False := by
  have hmid : depth mid = 0 := by simpa [hleft.depth_eq_zero] using houter.depth_eq_zero
  have htight := hright.level_le rfl hmid
  have hloose := houter.level_le rfl hleft.depth_eq_zero
  omega

/-- **A run of lexemes has one grouping.** -/
theorem unique {level level' : Nat} {run : List Lexeme} {grouping grouping' : Grouping}
    (h : Groups level run grouping) (h' : Groups level' run grouping') : grouping = grouping' := by
  induction h generalizing level' grouping' with
  | literal text =>
    generalize hrun : [Lexeme.literal text] = run at h'
    rcases h' with _ | _ | _ | ⟨_, hlhs, _⟩
    · cases hrun
      rfl
    · cases hrun
    · cases hrun
    · exact (no_operator (.literal text) hrun hlhs.depth_eq_zero).elim
  | name text =>
    generalize hrun : [Lexeme.name text] = run at h'
    rcases h' with _ | _ | _ | ⟨_, hlhs, _⟩
    · cases hrun
    · cases hrun
      rfl
    · cases hrun
    · exact (no_operator (.name text) hrun hlhs.depth_eq_zero).elim
  | @parenthesized _ inner _ h ih =>
    generalize hrun : Lexeme.opening :: (inner ++ [.closing]) = run at h'
    rcases h' with _ | _ | h' | ⟨_, hlhs, _⟩
    · cases hrun
    · cases hrun
    · rw [List.append_cancel_right (List.cons.inj hrun).2] at ih
      exact ih h'
    · exact (no_operator h.parenthesized hrun hlhs.depth_eq_zero).elim
  | @binary _ op lhs rhs _ _ hlevel hlhs hrhs ihl ihr =>
    generalize hrun : lhs ++ Lexeme.operator op :: rhs = run at h'
    rcases h' with text | text | h' | ⟨_, hlhs', hrhs'⟩
    · exact (no_operator (.literal text) hrun.symm hlhs.depth_eq_zero).elim
    · exact (no_operator (.name text) hrun.symm hlhs.depth_eq_zero).elim
    · exact (no_operator h'.parenthesized hrun.symm hlhs.depth_eq_zero).elim
    · obtain ⟨rfl, hop, rfl⟩ | ⟨mid, rfl, rfl⟩ | ⟨mid, rfl, rfl⟩ := append_cons_cases hrun
      · obtain rfl := Lexeme.operator.inj hop
        rw [ihl hlhs', ihr hrhs']
      · exact (no_crossing hlhs hrhs hlhs').elim
      · exact (no_crossing hlhs' hrhs' hlhs).elim

end Groups

end Peephole

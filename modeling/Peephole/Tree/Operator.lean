/-!
# Tree/Operator — the operators of replacement expressions

    arithmetic   + - * / %              conditions   == != && || < > <= >=

Every operator is written with one token, the same in pattern files and in C, so `token` is the
whole spelling of an operator and `ofToken?` its inverse (`ofToken?_token`).
-/

namespace Peephole

/-- An operator that computes a number. -/
inductive Arithmetic where
  | add
  | sub
  | mul
  | div
  | rem
deriving DecidableEq, Repr

/-- An operator that decides: a comparison or a logical connective. -/
inductive Condition where
  | eq
  | ne
  | and
  | or
  | lt
  | gt
  | le
  | ge
deriving DecidableEq, Repr

namespace Arithmetic

/-- All arithmetic operators. -/
def all : List Arithmetic := [add, sub, mul, div, rem]

/-- The spelling of an arithmetic operator, in pattern files and in C. -/
def token : Arithmetic → String
  | add => "+"
  | sub => "-"
  | mul => "*"
  | div => "/"
  | rem => "%"

/-- The operator a token spells. -/
def ofToken? (text : String) : Option Arithmetic := all.find? (·.token == text)

/-- Each arithmetic operator is read back from its token. -/
theorem ofToken?_token (op : Arithmetic) : ofToken? op.token = some op := by
  cases op <;> decide

end Arithmetic

namespace Condition

/-- All condition operators. -/
def all : List Condition := [eq, ne, and, or, lt, gt, le, ge]

/-- The spelling of a condition operator, in pattern files and in C. -/
def token : Condition → String
  | eq => "=="
  | ne => "!="
  | and => "&&"
  | or => "||"
  | lt => "<"
  | gt => ">"
  | le => "<="
  | ge => ">="

/-- The operator a token spells. -/
def ofToken? (text : String) : Option Condition := all.find? (·.token == text)

/-- Each condition operator is read back from its token. -/
theorem ofToken?_token (op : Condition) : ofToken? op.token = some op := by
  cases op <;> decide

end Condition

/-- An operator of either sort. -/
inductive Operator where
  | arithmetic (op : Arithmetic)
  | condition (op : Condition)
deriving DecidableEq, Repr

/-- The spelling of an operator, in pattern files and in C. -/
def Operator.token : Operator → String
  | arithmetic op => op.token
  | condition op => op.token

end Peephole

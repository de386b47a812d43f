import Mathlib.Data.List.Basic
import Peephole.Proofs.C.Syntax

/-!
# Proofs/C/Machine — what the statements of a matcher do

A matcher runs over a heap of instruction nodes linked by `next`, and gets the place `c` that holds
the first node of a list.  Running its statements either ends in a `return`, falls through the last
of them, or has no meaning (`none`): a name that is not declared or declared again, a NULL or
dangling node, arithmetic that C leaves undefined.

The helpers `next`, `copyCODE` and `replace` do what the preamble of a generated file says.
`makeCODE…` and `is_…` belong to the instruction list: the former makes a node, the latter holds of
a node with that opcode and as many arguments as addresses given, and fetches them.
-/

namespace Peephole

/-- An instruction: its opcode and its arguments. -/
structure Instr where
  opcode : String
  arguments : List Int
deriving DecidableEq, Repr

/-- The integers of a C implementation: how it reads constants and what its operators yield, `none`
where it need not yield anything.  All that is asked of it is that it has a zero. -/
structure Arith where
  constant : String → Option Int
  apply : Arithmetic → Int → Int → Option Int
  negate : Int → Option Int
  constant_zero : constant "0" = some 0

/-- A number is not too large to be a constant, and means what it says in decimal. -/
def Arith.Reads (arith : Arith) (n : Nat) : Prop := arith.constant (toString n) = some (n : Int)

/-- The truth value of a decision. -/
def truth (b : Bool) : Int := if b then 1 else 0

/-- What an operator makes of its operands.  `&&` and `||` look at the second only if the first does
not decide. -/
def Arith.operate (arith : Arith) : Operator → Option Int → Option Int → Option Int
  | .arithmetic op, lhs, rhs => do arith.apply op (← lhs) (← rhs)
  | .condition .and, lhs, rhs => do
    if (← lhs) = 0 then return 0 else return truth ((← rhs) != 0)
  | .condition .or, lhs, rhs => do
    if (← lhs) = 0 then return truth ((← rhs) != 0) else return 1
  | .condition .eq, lhs, rhs => return truth ((← lhs) == (← rhs))
  | .condition .ne, lhs, rhs => return truth ((← lhs) != (← rhs))
  | .condition .lt, lhs, rhs => return truth ((← lhs) < (← rhs))
  | .condition .gt, lhs, rhs => return truth ((← lhs) > (← rhs))
  | .condition .le, lhs, rhs => return truth ((← lhs) ≤ (← rhs))
  | .condition .ge, lhs, rhs => return truth ((← lhs) ≥ (← rhs))

namespace C

/-! ## Memory -/

/-- A node of an instruction list. -/
structure Cell where
  instr : Instr
  next : Option Nat
deriving DecidableEq, Repr

/-- The nodes, each at the address that is its index. -/
abbrev Store := List Cell

/-- The node `k` nodes after another, or NULL where the list ends before. -/
def skip (store : Store) : Nat → Option Nat → Option (Option Nat)
  | 0, node => some node
  | _ + 1, none => some none
  | k + 1, some address => do skip store k (← store[address]?).next

/-- The last node before `stop` or the end of the list, looking at most at `fuel` nodes. -/
def lastBefore (store : Store) (stop : Option Nat) : Nat → Nat → Option Nat
  | 0, _ => none
  | fuel + 1, address => do
    match (← store[address]?).next with
    | none => return address
    | some next => if some next = stop then return address else lastBefore store stop fuel next

/-- Sets the `next` field of a node. -/
def setNext (store : Store) (address : Nat) (next : Option Nat) : Option Store := do
  let cell ← store[address]?
  return store.set address ⟨cell.instr, next⟩

/-! ## States -/

/-- The value of a C expression. -/
inductive Value where
  | int (value : Int)
  /-- A `CODE *`. -/
  | node (address : Option Nat)
  /-- The address of an `int` local. -/
  | localAddress (name : String)
  /-- The place `c` that a matcher is given. -/
  | origin
deriving DecidableEq, Repr

/-- What a matcher works on. -/
structure State where
  store : Store
  /-- What `*c` holds. -/
  start : Option Nat
  /-- The locals declared, each with its value once it has one. -/
  locals : String → Option (Option Value)

namespace State

/-- Puts a local into the state. -/
def set (state : State) (name : String) (value : Option Value) : State :=
  { state with locals := Function.update state.locals name (some value) }

@[simp] theorem store_set (state : State) (name : String) (value : Option Value) :
    (state.set name value).store = state.store := rfl

@[simp] theorem start_set (state : State) (name : String) (value : Option Value) :
    (state.set name value).start = state.start := rfl

@[simp] theorem locals_set_self (state : State) (name : String) (value : Option Value) :
    (state.set name value).locals name = some value :=
  Function.update_self _ _ _

theorem locals_set_of_ne (state : State) {name other : String} (value : Option Value)
    (h : other ≠ name) : (state.set name value).locals other = state.locals other :=
  Function.update_of_ne h _ _

/-- Declares a local, which must be new. -/
def declare (state : State) (name : String) (value : Option Value) : Option State :=
  match state.locals name with
  | some _ => none
  | none => some (state.set name value)

/-- Gives a declared local a value. -/
def assign (state : State) (name : String) (value : Value) : Option State :=
  match state.locals name with
  | none => none
  | some _ => some (state.set name (some value))

/-- Gives declared locals values, one by one. -/
def assignAll (state : State) : List (String × Int) → Option State
  | [] => some state
  | (name, value) :: more => do (← state.assign name (.int value)).assignAll more

/-- Makes a node. -/
def allocate (state : State) (cell : Cell) : Value × State :=
  (.node (some state.store.length), { state with store := state.store ++ [cell] })

/-- What remains of the locals of `inner` once the block that `state` entered is left. -/
def leave (state inner : State) : State :=
  { inner with
    locals := fun name => if (state.locals name).isSome then inner.locals name else none }

end State

/-! ## Expressions -/

/-- The number that a value is. -/
def Value.int? : Value → Option Int
  | int value => some value
  | _ => none

/-- The local whose address a value is. -/
def Value.localAddress? : Value → Option String
  | localAddress name => some name
  | _ => none

/-- The text after a given start. -/
def suffix? (start text : String) : Option String :=
  (dropStart start.toList text.toList).map String.ofList

/-- `makeCODE…(arguments, next)` -/
def makeCode (opcode : String) (arguments : List Value) (state : State) :
    Option (Value × State) := do
  let .node next ← arguments.getLast? | none
  let values ← arguments.dropLast.mapM Value.int?
  return state.allocate ⟨⟨opcode, values⟩, next⟩

/-- `is_…(node, &local, …)` -/
def isCode (opcode : String) (node : Option Nat) (addresses : List String) (state : State) :
    Option (Value × State) :=
  match node with
  | none => some (.int 0, state)
  | some address => do
    let cell ← state.store[address]?
    if cell.instr.opcode = opcode ∧ cell.instr.arguments.length = addresses.length then
      return (.int 1, ← state.assignAll (addresses.zip cell.instr.arguments))
    else return (.int 0, state)

/-- `replace(c, consumed, list)` -/
def replace (consumed : Nat) (list : Option Nat) (state : State) : Option (Value × State) := do
  let rest ← skip state.store consumed state.start
  match list with
  | none => return (.int 1, { state with start := rest })
  | some head =>
    let last ← lastBefore state.store rest state.store.length head
    return (.int 1, { state with store := ← setNext state.store last rest, start := some head })

/-- Calls a function. -/
def callFunction (function : String) (arguments : List Value) (state : State) :
    Option (Value × State) :=
  if function = "next" then
    match arguments with
    | [.node none] => some (.node none, state)
    | [.node (some address)] => do return (.node (← state.store[address]?).next, state)
    | _ => none
  else if function = "copyCODE" then
    match arguments with
    | [.node (some address)] => do
      return state.allocate ⟨(← state.store[address]?).instr, none⟩
    | _ => none
  else if function = "replace" then
    match arguments with
    | [.origin, .int consumed, .node list] => replace consumed.toNat list state
    | _ => none
  else
    match suffix? "makeCODE" function, suffix? "is_" function, arguments with
    | some opcode, _, arguments => makeCode opcode arguments state
    | none, some opcode, .node node :: addresses => do
      isCode opcode node (← addresses.mapM Value.localAddress?) state
    | _, _, _ => none

/-- What a binary operator makes of two values, other than `&&` and `||`. -/
def binaryValue (arith : Arith) (op : Operator) : Value → Value → Option Value
  | .int lhs, .int rhs => (arith.operate op (some lhs) (some rhs)).map .int
  | .node lhs, .node rhs =>
    if op = .condition .eq then some (.int (truth (lhs == rhs)))
    else if op = .condition .ne then some (.int (truth (lhs != rhs)))
    else none
  | _, _ => none

mutual

/-- The value of an expression and the state after it. -/
def eval (arith : Arith) : Term → State → Option (Value × State)
  | .number text, state => (arith.constant text).map (.int ·, state)
  | .name text, state =>
    if text = "NULL" then some (.node none, state)
    else if text = "c" then some (.origin, state)
    else do return (← (← state.locals text), state)
  | .unary .address operand, state =>
    match operand with
    | .name text => if (state.locals text).isSome then some (.localAddress text, state) else none
    | _ => none
  | .unary .deref operand, state => do
    let (.origin, state) ← eval arith operand state | none
    return (.node state.start, state)
  | .unary .minus operand, state => do
    let (.int value, state) ← eval arith operand state | none
    return (.int (← arith.negate value), state)
  | .unary .not operand, state => do
    let (.int value, state) ← eval arith operand state | none
    return (.int (truth (value == 0)), state)
  | .binary op lhs rhs, state => do
    let (first, state) ← eval arith lhs state
    match op, first with
    | .condition .and, .int value =>
      if value = 0 then return (.int 0, state)
      else
        let (.int value, state) ← eval arith rhs state | none
        return (.int (truth (value != 0)), state)
    | .condition .or, .int value =>
      if value = 0 then
        let (.int value, state) ← eval arith rhs state | none
        return (.int (truth (value != 0)), state)
      else return (.int 1, state)
    | op, first =>
      let (second, state) ← eval arith rhs state
      return (← binaryValue arith op first second, state)
  | .call function arguments, state => do
    let (values, state) ← evalAll arith arguments state
    callFunction function values state

/-- The values of expressions, from left to right. -/
def evalAll (arith : Arith) : List Term → State → Option (List Value × State)
  | [], state => some ([], state)
  | term :: terms, state => do
    let (value, state) ← eval arith term state
    let (values, state) ← evalAll arith terms state
    return (value :: values, state)

end

/-! ## Statements -/

/-- How statements end. -/
inductive Outcome where
  /-- After the last of them. -/
  | running (state : State)
  | returned (value : Int) (state : State)

mutual

/-- Executes a statement. -/
def Stmt.exec (arith : Arith) : Stmt → State → Option Outcome
  | .declareCode name value, state => do
    let (.node address, state) ← eval arith value state | none
    return .running (← state.declare name (some (.node address)))
  | .declareInt name, state => do return .running (← state.declare name none)
  | .setField name field value, state => do
    let (.node next, state) ← eval arith value state | none
    let some (.node (some address)) ← state.locals name | none
    if field = "next" then
      return .running { state with store := ← setNext state.store address next }
    else none
  | .ret value, state => do
    let (.int value, state) ← eval arith value state | none
    return .returned value state
  | .branch condition yes no, state => do
    let (.int value, state) ← eval arith condition state | none
    match ← if value = 0 then execAll arith no state else execAll arith yes state with
    | .running inner => return .running (state.leave inner)
    | .returned value inner => return .returned value inner

/-- Executes statements in order. -/
def execAll (arith : Arith) : List Stmt → State → Option Outcome
  | [], state => some (.running state)
  | stmt :: stmts, state => do
    match ← stmt.exec arith state with
    | .running state => execAll arith stmts state
    | .returned value state => return .returned value state

end

/-- **Executes a text**, which has an outcome only if it can be read. -/
def run (arith : Arith) (text : String) (state : State) : Option Outcome := do
  execAll arith (← read text) state

end C

end Peephole

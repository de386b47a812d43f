import Peephole.Proofs.C.Heap
import Peephole.Proofs.Names

/-!
# Proofs/C/Evaluation — the expressions and statements that matchers are made of

One lemma for each shape of expression and statement in a matcher, so that proofs about matchers
need not open the machine.
-/

namespace Peephole

open C

variable {arith : Arith} {state : State}

/-- Integers without bounds. -/
def Arith.unbounded : Arith where
  constant text := some ((Nat.ofDigitChars 10 text.toList 0 : Nat) : Int)
  apply
    | .add, lhs, rhs => some (lhs + rhs)
    | .sub, lhs, rhs => some (lhs - rhs)
    | .mul, lhs, rhs => some (lhs * rhs)
    | .div, lhs, rhs => if rhs = 0 then none else some (lhs.tdiv rhs)
    | .rem, lhs, rhs => if rhs = 0 then none else some (lhs.tmod rhs)
  negate value := some (-value)
  constant_zero := rfl

theorem Arith.reads_unbounded (n : Nat) : unbounded.Reads n := by
  show some ((Nat.ofDigitChars 10 (toString n).toList 0 : Nat) : Int) = some (n : Int)
  rw [toString_toList, Nat.ofDigitChars_ten_toDigits]

/-! ## Expressions -/

/-- **An operator in C does what it does to values**, `&&` and `||` included: the second operand is
looked at in the same cases. -/
theorem eval_binary (op : Operator) {lhs rhs : Term} {left right : Option Int}
    (hl : eval arith lhs state = left.map (.int ·, state))
    (hr : eval arith rhs state = right.map (.int ·, state)) :
    eval arith (.binary op lhs rhs) state = (arith.operate op left right).map (.int ·, state) := by
  rcases left with _ | l
  · rcases op with op | op
    · simp [eval, hl, Arith.operate]
    · cases op <;> simp [eval, hl, Arith.operate]
  rcases op with op | op
  · rcases right with _ | r
    · simp [eval, hl, hr, Arith.operate]
    · cases h : arith.apply op l r <;> simp [eval, hl, hr, binaryValue, Arith.operate, h]
  cases op
  case and =>
    by_cases hzero : l = 0
    · simp [eval, hl, Arith.operate, hzero]
    · cases right <;> simp [eval, hl, hr, Arith.operate, hzero]
  case or =>
    by_cases hzero : l = 0
    · cases right <;> simp [eval, hl, hr, Arith.operate, hzero]
    · simp [eval, hl, Arith.operate, hzero]
  all_goals cases right <;> simp [eval, hl, hr, binaryValue, Arith.operate]

/-- A local is read where it stands. -/
theorem eval_name {name : String} {value : C.Value} (hnull : name ≠ "NULL") (hc : name ≠ "c")
    (h : state.locals name = some (some value)) :
    eval arith (.name name) state = some (value, state) := by
  simp [eval, hnull, hc, h]

/-- The local of a capture is worth what was captured. -/
theorem eval_argumentLocal {name : String} {value : Int}
    (h : state.locals (argumentLocal name) = some (some (.int value))) :
    eval arith (.name (argumentLocal name)) state = some (.int value, state) := by
  refine eval_name ?_ ?_ h
  · exact fun heq => by simpa [argumentLocal] using congrArg String.toList heq
  · exact fun heq => by simpa [argumentLocal] using congrArg String.toList heq

/-- The local of a new node is told from other names by its first letter. -/
theorem nodeLocal_ne {node : Nat} {name : String} (h : name.toList.head? ≠ some 's') :
    nodeLocal node ≠ name := by
  rintro rfl
  simp [nodeLocal] at h

theorem cursorLocal_ne {name other : String} (h : other.toList.head? ≠ some 'i') :
    cursorLocal name ≠ other := by
  rintro rfl
  simp [cursorLocal] at h

theorem suffix?_append (start text : String) : suffix? start (start ++ text) = some text := by
  have hdrop : ∀ first second : List Char, dropStart first (first ++ second) = some second := by
    intro first second
    induction first with
    | nil => rfl
    | cons c first ih => simp [dropStart, ih]
  simp [suffix?, hdrop]

/-- A call of `makeCODE` and an opcode makes a node of that opcode. -/
theorem callFunction_makeCode (opcode : String) (arguments : List C.Value) :
    callFunction ("makeCODE" ++ opcode) arguments state = makeCode opcode arguments state := by
  have hne : ∀ name : String, name.toList.head? ≠ some 'm' → "makeCODE" ++ opcode ≠ name := by
    rintro name hname rfl
    simp at hname
  unfold callFunction
  rw [if_neg (hne _ (by decide)), if_neg (hne _ (by decide)), if_neg (hne _ (by decide)),
    suffix?_append]

/-- A list of numbers up to `NULL` becomes the arguments of the new node. -/
theorem makeCode_ints (opcode : String) (ints : List Int) :
    makeCode opcode (ints.map .int ++ [.node none]) state
      = some (state.allocate ⟨⟨opcode, ints⟩, none⟩) := by
  have hints : (ints.map C.Value.int).mapM C.Value.int? = some ints := by
    induction ints with
    | nil => rfl
    | cons int ints ih => simp [C.Value.int?, ih]
  simp [makeCode, hints]

/-- `next(cursor)` -/
theorem eval_next {cursor : String} {address : Nat} {cell : Cell} (hnull : cursor ≠ "NULL")
    (hc : cursor ≠ "c") (hcursor : state.locals cursor = some (some (.node (some address))))
    (hcell : state.store[address]? = some cell) :
    eval arith (.call "next" [.name cursor]) state = some (.node cell.next, state) := by
  simp [eval, evalAll, hnull, hc, hcursor, callFunction, hcell]

/-! ## Guards -/

/-- A call of `is_` and an opcode tests for that opcode. -/
theorem callFunction_isCode (opcode : String) (node : Option Nat) (names : List String) :
    callFunction ("is_" ++ opcode) (.node node :: names.map .localAddress) state
      = isCode opcode node names state := by
  have hne : ∀ name : String, name.toList.head? ≠ some 'i' → "is_" ++ opcode ≠ name := by
    rintro name hname rfl
    simp at hname
  have hmake : suffix? "makeCODE" ("is_" ++ opcode) = none := by simp [suffix?, dropStart]
  have hnames : (names.map C.Value.localAddress).mapM C.Value.localAddress? = some names := by
    induction names with
    | nil => rfl
    | cons name names ih => simp [C.Value.localAddress?, ih]
  unfold callFunction
  rw [if_neg (hne _ (by decide)), if_neg (hne _ (by decide)), if_neg (hne _ (by decide)),
    suffix?_append, hmake]
  simp [hnames]

/-- Addresses of locals are passed as they are, and change nothing. -/
theorem evalAll_addresses {names : List String} (h : ∀ name ∈ names, (state.locals name).isSome) :
    evalAll arith (names.map fun name => .unary .address (.name name)) state
      = some (names.map .localAddress, state) := by
  induction names with
  | nil => rfl
  | cons name names ih =>
    rw [List.forall_mem_cons] at h
    simp [evalAll, eval, h.1, ih h.2]

/-- `!is_…(place, &local, …)` -/
theorem eval_isCode {opcode place : String} {node : Option Nat} {names : List String} {value : Int}
    {after : State} (hplace : eval arith (.name place) state = some (.node node, state))
    (hnames : ∀ name ∈ names, (state.locals name).isSome)
    (h : isCode opcode node names state = some (.int value, after)) :
    eval arith (.unary .not (.call ("is_" ++ opcode)
      (.name place :: names.map fun name => .unary .address (.name name)))) state
      = some (.int (truth (value == 0)), after) := by
  have hcall : callFunction ("is_" ++ opcode) (.node node :: names.map .localAddress) state
      = some (.int value, after) := (callFunction_isCode opcode node names).trans h
  have hall : evalAll arith
      (.name place :: names.map fun name => .unary .address (.name name)) state
      = some (.node node :: names.map .localAddress, state) := by
    rw [evalAll, hplace]
    simp [evalAll_addresses hnames]
  simp [eval, hall, hcall]

/-- Declared locals take values. -/
theorem assignAll_zip {names : List String} {values : List Int} (hnodup : names.Nodup)
    (hlength : names.length = values.length) (h : ∀ name ∈ names, (state.locals name).isSome) :
    ∃ after, state.assignAll (names.zip values) = some after ∧ after.store = state.store ∧
      after.start = state.start ∧
      List.Forall₂ (fun name value => after.locals name = some (some (.int value))) names values ∧
      ∀ name, name ∉ names → after.locals name = state.locals name := by
  induction names generalizing values state with
  | nil =>
    obtain rfl := List.length_eq_zero_iff.1 hlength.symm
    exact ⟨state, rfl, rfl, rfl, .nil, fun _ _ => rfl⟩
  | cons name names ih =>
    obtain ⟨value, values, rfl⟩ := List.exists_cons_of_length_eq_add_one hlength.symm
    rw [List.nodup_cons] at hnodup
    rw [List.forall_mem_cons] at h
    obtain ⟨before, hbefore⟩ := Option.isSome_iff_exists.1 h.1
    have hne : ∀ {other}, other ∈ names → other ≠ name := by
      rintro other hother rfl
      exact hnodup.1 hother
    obtain ⟨after, hassign, hstore, hstart, hvalues, hothers⟩ :=
      @ih (state.set name (some (.int value))) values hnodup.2 (Nat.succ.inj hlength)
        fun other hother => by
          rw [State.locals_set_of_ne state _ (hne hother)]
          exact h.2 other hother
    refine ⟨after, ?_, hstore, hstart, .cons ?_ hvalues, fun other hother => ?_⟩
    · rw [List.zip_cons_cons, State.assignAll, State.assign, hbefore]
      exact hassign
    · rw [hothers name hnodup.1, State.locals_set_self]
    · rw [List.mem_cons, not_or] at hother
      rw [hothers other hother.2, State.locals_set_of_ne state _ hother.1]

/-! ## Statements -/

/-- Linking a node changes the store and nothing else. -/
theorem execAll_setNext {name : String} {value : Term} {next : Option Nat} {address : Nat}
    {store : Store} {rest : List Stmt} (h : eval arith value state = some (.node next, state))
    (hname : state.locals name = some (some (.node (some address))))
    (hset : setNext state.store address next = some store) :
    execAll arith (.setField name "next" value :: rest) state
      = execAll arith rest { state with store } := by
  simp [execAll, Stmt.exec, h, hname, hset]

/-- `return replace(c, consumed, head);` -/
theorem execAll_replace {consumed : Nat} (hcount : arith.Reads consumed) (head : Term)
    {node : Option Nat} {after : State}
    (hhead : eval arith head state = some (.node node, state))
    (hreplace : C.replace consumed node state = some (.int 1, after)) :
    execAll arith
      [.ret (.call "replace" [.name "c", .number (toString consumed), head])] state
      = some (.returned 1 after) := by
  have hnumber : arith.constant consumed.repr = some (consumed : Int) := hcount
  simp [execAll, Stmt.exec, eval, evalAll, hnumber, hhead, callFunction, hreplace]

/-- `return 0;` -/
theorem execAll_giveUp : execAll arith [.ret (.number "0")] state = some (.returned 0 state) := by
  simp [execAll, Stmt.exec, eval, arith.constant_zero]

/-- A branch that does not fall through ends as the part that is taken. -/
theorem execAll_branch {arith : Arith} {state : State} {condition : Term} {yes no : List Stmt}
    {value : Int} {outcome : Option Outcome}
    (hcondition : eval arith condition state = some (.int value, state))
    (houtcome : (if value = 0 then execAll arith no state else execAll arith yes state) = outcome)
    (hrun : ∀ after, outcome ≠ some (.running after)) :
    execAll arith [.branch condition yes no] state = outcome := by
  rw [execAll, Stmt.exec, hcondition]
  rcases outcome with _ | ⟨after⟩ | ⟨result, after⟩
  · by_cases hv : value = 0 <;> simp [hv] at houtcome <;> simp [hv, houtcome]
  · exact absurd rfl (hrun after)
  · by_cases hv : value = 0 <;> simp [hv] at houtcome <;> simp [hv, houtcome]

/-- Leaving a block that changed nothing changes nothing. -/
theorem leave_self (state : State) : state.leave state = state := by
  have hlocals : (fun name => if (state.locals name).isSome then state.locals name else none)
      = state.locals := by
    funext name
    cases state.locals name <;> rfl
  rw [State.leave, hlocals]

/-- `if (condition) return 0;` -/
theorem execAll_guard {condition : Term} {value : Int} {after : State} {rest : List Stmt}
    (h : eval arith condition state = some (.int value, after)) :
    execAll arith (.branch condition [.ret (.number "0")] [] :: rest) state
      = if value = 0 then execAll arith rest after else some (.returned 0 after) := by
  rw [execAll, Stmt.exec, h]
  by_cases hzero : value = 0
  · simp [hzero, execAll, leave_self]
  · simp [hzero, execAll_giveUp]

theorem execAll_declareCode {name : String} {value : Term} {node : Option Nat} {rest : List Stmt}
    (h : eval arith value state = some (.node node, state)) (hnew : state.locals name = none) :
    execAll arith (.declareCode name value :: rest) state
      = execAll arith rest (state.set name (some (.node node))) := by
  simp [execAll, Stmt.exec, h, State.declare, hnew]

/-- Declarations of `int` locals. -/
theorem execAll_declareInts {names : List String} {rest : List Stmt} (hnodup : names.Nodup)
    (hnew : ∀ name ∈ names, state.locals name = none) :
    ∃ after, execAll arith (names.map .declareInt ++ rest) state = execAll arith rest after ∧
      after.store = state.store ∧ after.start = state.start ∧
      (∀ name ∈ names, (after.locals name).isSome) ∧
      ∀ name, name ∉ names → after.locals name = state.locals name := by
  induction names generalizing state with
  | nil => exact ⟨state, rfl, rfl, rfl, by simp, fun _ _ => rfl⟩
  | cons name names ih =>
    rw [List.nodup_cons] at hnodup
    rw [List.forall_mem_cons] at hnew
    have hne : ∀ {other}, other ∈ names → other ≠ name := by
      rintro other hother rfl
      exact hnodup.1 hother
    obtain ⟨after, hexec, hstore, hstart, hdeclared, hothers⟩ :=
      @ih (state.set name none) hnodup.2 fun other hother => by
        rw [State.locals_set_of_ne state _ (hne hother)]
        exact hnew.2 other hother
    refine ⟨after, ?_, hstore, hstart, List.forall_mem_cons.2 ⟨?_, hdeclared⟩,
      fun other hother => ?_⟩
    · rw [List.map_cons, List.cons_append, ← hexec]
      simp [execAll, Stmt.exec, State.declare, hnew.1]
    · rw [hothers name hnodup.1, State.locals_set_self]
      rfl
    · rw [List.mem_cons, not_or] at hother
      rw [hothers other hother.2, State.locals_set_of_ne state _ hother.1]

end Peephole

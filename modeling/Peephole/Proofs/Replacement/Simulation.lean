import Peephole.Proofs.C.Evaluation
import Peephole.Proofs.Replacement.Compiles
import Peephole.Proofs.Replacement.Meaning

/-!
# Proofs/Replacement/Simulation — running the code of a replacement builds what it says

    statements ──compile──▸ body ──toStmts──▸ C
        │                                     │
     rewriting ─────────── the same ──────────┘

Code goes on with what follows a switch or a chain inside every branch, so the induction carries the
nodes linked so far: `Building` says that they hold what the statements run until then have built,
in memory behind everything else.  From there on, running the code and reading the rest of the
statements come to the same (`Compiles.realizes`).
-/

namespace Peephole

open C

/-! ## Expressions -/

section Expressions

variable {arith : Arith} {state : State}

/-- Terms joined to the left evaluate to their values joined to the left. -/
theorem eval_foldl (op : Operator) {terms : List Term} {values : List (Option Int)}
    (h : List.Forall₂ (fun term value => eval arith term state = value.map (.int ·, state))
      terms values) {first : Term} {value : Option Int}
    (hfirst : eval arith first state = value.map (.int ·, state)) :
    eval arith (terms.foldl (.binary op) first) state
      = (values.foldl (arith.operate op) value).map (.int ·, state) := by
  induction h generalizing first value with
  | nil => exact hfirst
  | cons hterm _ ih => exact ih (eval_binary op hfirst hterm)

/-- A chain of operators evaluates to its fold, without a change of state. -/
theorem eval_foldTerm (op : Operator) {terms : List Term} {value : Option Int}
    {values : List (Option Int)}
    (h : List.Forall₂ (fun term value => eval arith term state = value.map (.int ·, state))
      terms (value :: values)) :
    eval arith (foldTerm op terms) state
      = (arith.fold op (value :: values)).map (.int ·, state) := by
  cases h with
  | cons hfirst hmore => exact eval_foldl op hmore hfirst

/-- A literal evaluates to what C reads of it. -/
theorem eval_literalTerm (text : String) :
    eval arith (literalTerm text) state = (arith.literal text).map (.int ·, state) := by
  unfold literalTerm
  split
  case h_1 digits hminus =>
    rw [arith.literal_minus hminus]
    cases h : arith.constant (String.ofList digits) with
    | none => simp [eval, h]
    | some value => cases hn : arith.negate value <;> simp [eval, h, hn]
  case h_2 hplain =>
    rw [arith.literal_plain hplain]
    simp [eval]

/-- An operation is worth the fold of its operands. -/
theorem value_operation {kind : Kind} {op : Operator} {text : String} {operands : List Node}
    {arguments : String → Int} (hop : kind.operator? = some op) :
    (Node.mk kind text operands).value arith arguments
      = arith.fold op (Node.values arith arguments operands) := by
  cases kind <;> simp only [Kind.operator?, reduceCtorEq, Option.some.injEq] at hop <;>
    simp [Node.value, Kind.operator?, hop]

mutual

/-- **An expression in C has the value of the tree it comes from.** -/
theorem eval_toTerm {arguments : String → Int} : ∀ (node : Node) {expr : Expr},
    node.toExpr = .ok expr →
    (∀ name ∈ node.references,
      state.locals (argumentLocal name) = some (some (.int (arguments name)))) →
    eval arith expr.toTerm state = (node.value arith arguments).map (.int ·, state)
  | .mk kind text children, expr, hexpr, hlocals => by
    rw [Node.toExpr.eq_def] at hexpr
    dsimp only at hexpr
    split at hexpr
    case h_1 =>
      obtain rfl := Except.ok.inj hexpr
      exact eval_literalTerm text
    case h_2 =>
      obtain rfl := Except.ok.inj hexpr
      exact eval_argumentLocal (hlocals text (by simp [Node.references]))
    case h_3 =>
      split at hexpr
      case h_1 => simp at hexpr
      case h_2 op hop =>
        split at hexpr
        case isTrue => simp at hexpr
        case isFalse htwo =>
          obtain ⟨exprs, hexprs, heq⟩ := bind_eq_ok_iff.1 hexpr
          obtain rfl := Except.ok.inj heq
          rw [Node.references, List.forall_mem_append] at hlocals
          have hall := eval_toTerms children hexprs hlocals.2
          rw [value_operation hop, Expr.toTerm]
          cases children with
          | nil => simp at htwo
          | cons first rest => exact eval_foldTerm op hall

/-- Each expression of a list evaluates to the value of its tree. -/
theorem eval_toTerms {arguments : String → Int} : ∀ (nodes : List Node) {exprs : List Expr},
    Node.toExprs nodes = .ok exprs →
    (∀ name ∈ Node.referencesAll nodes,
      state.locals (argumentLocal name) = some (some (.int (arguments name)))) →
    List.Forall₂ (fun term value => eval arith term state = value.map (.int ·, state))
      (Expr.toTerms exprs) (Node.values arith arguments nodes)
  | [], exprs, hexprs, _ => by
    obtain rfl := Except.ok.inj hexprs
    exact .nil
  | node :: nodes, exprs, hexprs, hlocals => by
    rw [Node.toExprs] at hexprs
    obtain ⟨expr, hexpr, hmore⟩ := bind_eq_ok_iff.1 hexprs
    obtain ⟨exprs', hexprs', heq⟩ := bind_eq_ok_iff.1 hmore
    obtain rfl := Except.ok.inj heq
    rw [Node.referencesAll, List.forall_mem_append] at hlocals
    exact .cons (eval_toTerm node hexpr hlocals.1) (eval_toTerms nodes hexprs' hlocals.2)

end

/-- **The arguments of a new instruction, and the NULL behind them.** -/
theorem evalAll_arguments {terms : List Term} {values : List (Option Int)}
    (h : List.Forall₂ (fun term value => eval arith term state = value.map (.int ·, state))
      terms values) :
    evalAll arith (terms ++ [.name "NULL"]) state
      = (values.mapM id).map fun ints => (ints.map .int ++ [.node none], state) := by
  induction h with
  | nil => simp [evalAll, eval]
  | @cons term value terms values hterm _ ih =>
    rw [List.cons_append, evalAll, hterm, List.mapM_cons]
    cases value with
    | none => simp
    | some value => cases hm : values.mapM id <;> simp [ih, hm]

/-! ## New nodes -/

/-- **Building an instruction makes a node of it.** -/
theorem eval_make {arguments : String → Int} {nodes : List Node} {exprs : List Expr}
    (opcode : String) (h : Node.toExprs nodes = .ok exprs)
    (hlocals : ∀ name ∈ Node.referencesAll nodes,
      state.locals (argumentLocal name) = some (some (.int (arguments name)))) :
    eval arith (Value.make opcode exprs).toTerm state
      = (((Node.values arith arguments nodes).mapM id).map (Instr.mk opcode)).map fun instr =>
        state.allocate ⟨instr, none⟩ := by
  rw [Value.toTerm, eval, evalAll_arguments (eval_toTerms nodes h hlocals)]
  cases (Node.values arith arguments nodes).mapM id with
  | none => rfl
  | some ints => simp [callFunction_makeCode, makeCode_ints]

/-- **A copy makes a node of the instruction at a cursor.** -/
theorem eval_copy {cursor : String} {address : Nat} {cell : Cell} (hnull : cursor ≠ "NULL")
    (hc : cursor ≠ "c") (hcursor : state.locals cursor = some (some (.node (some address))))
    (hcell : state.store[address]? = some cell) :
    eval arith (Value.copy cursor).toTerm state
      = some (state.allocate ⟨cell.instr, none⟩) := by
  simp [Value.toTerm, eval, evalAll, hnull, hc, hcursor, callFunction, hcell]

end Expressions

/-! ## Nodes linked so far -/

/-- The state in which a match has been made. -/
structure Matched (layout : Layout) (found : Match) (state : State) : Prop where
  /-- `*c` holds the list. -/
  holds : Holds state.store state.start found.input
  /-- Every element has an instruction. -/
  enough : layout.consumed ≤ found.input.length
  /-- The cursor of an element points at its instruction. -/
  cursors : ∀ (position : Nat) (element : Element), layout.elements[position]? = some element →
    ∃ node, skip state.store position state.start = some node ∧
      state.locals element.cursor = some (some (.node node))
  /-- The captured arguments are in their locals. -/
  arguments : ∀ name ∈ layout.captures,
    state.locals (argumentLocal name) = some (some (.int (found.arguments name)))
  /-- There are no nodes yet. -/
  fresh : ∀ node, state.locals (nodeLocal node) = none

/-- What memory holds of the nodes linked so far: one behind the other, the last still open. -/
def Cells (base : State) (built : List Instr) (state : State) : Option Linked → Prop
  | none => built = [] ∧ state.store = base.store
  | some linked => ∃ init last, built = init ++ [last] ∧
    state.store = extended base.store init last none ∧
    state.locals (nodeLocal linked.head) = some (some (.node (some base.store.length))) ∧
    state.locals (nodeLocal linked.last)
      = some (some (.node (some (base.store.length + init.length))))

/-- **The state in which some instructions have been built**, after `count` nodes of which the
linked ones lead here. -/
structure Building (base : State) (linked : Option Linked) (count : Nat) (built : List Instr)
    (state : State) : Prop where
  start : state.start = base.start
  /-- Only the locals of nodes are new. -/
  locals : ∀ name, (∀ node, name ≠ nodeLocal node) → state.locals name = base.locals name
  fresh : ∀ node, count < node → state.locals (nodeLocal node) = none
  cells : Cells base built state linked

section Steps

variable {arith : Arith} {base state : State} {linked : Option Linked} {count : Nat}
  {built : List Instr}

theorem eval_nodeLocal {node : Nat} {value : C.Value}
    (h : state.locals (nodeLocal node) = some (some value)) :
    eval arith (.name (nodeLocal node)) state = some (value, state) :=
  eval_name (nodeLocal_ne (by decide)) (nodeLocal_ne (by decide)) h

/-- The state after the declaration of a node. -/
def C.State.made (state : State) (node : Nat) (instr : Instr) : State :=
  State.set { state with store := state.store ++ [⟨instr, none⟩] } (nodeLocal node)
    (some (.node (some state.store.length)))

/-- Declaring a node allocates it and goes on. -/
theorem execAll_declare {node : Nat} {value : Value} {instr : Instr} {rest : List Stmt}
    (h : eval arith value.toTerm state = some (state.allocate ⟨instr, none⟩))
    (hnew : state.locals (nodeLocal node) = none) :
    execAll arith (.declareCode (nodeLocal node) value.toTerm :: rest) state
      = execAll arith rest (state.made node instr) := by
  simp [execAll, Stmt.exec, h, State.declare, State.allocate, hnew, State.made]

theorem locals_made_self (state : State) (node : Nat) (instr : Instr) :
    (state.made node instr).locals (nodeLocal node)
      = some (some (.node (some state.store.length))) :=
  State.locals_set_self _ _ _

theorem locals_made_of_ne {name : String} {node : Nat} (instr : Instr) (h : name ≠ nodeLocal node) :
    (state.made node instr).locals name = state.locals name :=
  State.locals_set_of_ne _ _ h

/-- **One more node**: it goes behind the last, which is closed on it. -/
theorem Building.build (h : Building base linked count built state) {value : Value} {instr : Instr}
    (heval : eval arith value.toTerm state = some (state.allocate ⟨instr, none⟩)) (body : Body) :
    ∃ next, execAll arith (Scene.build linked (count + 1) value body).toStmts state
        = execAll arith body.toStmts next ∧
      Building base (some (Scene.extend linked (count + 1))) (count + 1) (built ++ [instr])
        next := by
  have hnew : state.locals (nodeLocal (count + 1)) = none := h.fresh _ (Nat.lt_succ_self count)
  have hother : ∀ {node value}, state.locals (nodeLocal node) = some value →
      nodeLocal node ≠ nodeLocal (count + 1) := by
    rintro node value hvalue heq
    rw [heq, hnew] at hvalue
    simp at hvalue
  have hlocals : ∀ name, (∀ node, name ≠ nodeLocal node) →
      (state.made (count + 1) instr).locals name = base.locals name := fun name hname => by
    rw [locals_made_of_ne instr (hname _), h.locals name hname]
  have hfresh : ∀ node, count + 1 < node →
      (state.made (count + 1) instr).locals (nodeLocal node) = none := fun node hnode => by
    rw [locals_made_of_ne instr fun heq => by have := nodeLocal_inj heq; omega]
    exact h.fresh node (by omega)
  have hself := locals_made_self state (count + 1) instr
  cases linked with
  | none =>
    obtain ⟨rfl, hstore⟩ := h.cells
    refine ⟨state.made (count + 1) instr, execAll_declare heval hnew, h.start, hlocals, hfresh, ?_⟩
    rw [hstore] at hself
    exact ⟨[], instr, rfl, by simp [State.made, hstore, extended, chainCells], hself, hself⟩
  | some linked =>
    obtain ⟨init, last, rfl, hstore, hhead, hlast⟩ := h.cells
    have hlength : state.store.length = base.store.length + init.length + 1 := by
      rw [hstore, length_extended]
    have hset : setNext (state.store ++ [⟨instr, none⟩]) (base.store.length + init.length)
        (some state.store.length) = some (extended base.store (init ++ [last]) instr none) := by
      rw [hlength, hstore]
      exact setNext_extended_concat instr
    refine ⟨{ state.made (count + 1) instr with store := _ },
      (execAll_declare heval hnew).trans (execAll_setNext (eval_nodeLocal hself) ?_ hset),
      h.start, hlocals, hfresh, init ++ [last], instr, rfl, rfl, ?_, ?_⟩
    · rw [locals_made_of_ne instr (hother hlast), hlast]
    · exact (locals_made_of_ne instr (hother hhead)).trans hhead
    · refine hself.trans ?_
      rw [hlength, List.length_append, List.length_singleton, Nat.add_assoc]

/-! ## The end of a body -/

/-- The cursors of a layout are locals of their own sort. -/
def Layout.NamesCursors (layout : Layout) : Prop :=
  ∀ element ∈ layout.elements, ∃ name, element.cursor = cursorLocal name ∧ WordChars name

/-- All cursors are names. -/
theorem Layout.NamesCursors.isName {layout : Layout} (h : layout.NamesCursors) :
    ∀ element ∈ layout.elements, IsName element.cursor := by
  intro element helement
  obtain ⟨name, hcursor, hchars⟩ := h element helement
  rw [hcursor]
  exact isName_cursorLocal hchars

/-- A cursor is told from other names by its first letter. -/
theorem Layout.NamesCursors.ne {layout : Layout} (h : layout.NamesCursors) {element : Element}
    (helement : element ∈ layout.elements) {other : String}
    (hother : other.toList.head? ≠ some 'i') : element.cursor ≠ other := by
  obtain ⟨name, hcursor, -⟩ := h element helement
  rw [hcursor]
  exact cursorLocal_ne hother

variable {scene : Scene} {found : Match}

/-- The instruction at the cursor of an element, while a replacement is built. -/
theorem Building.cursor (h : Building base linked count built state)
    (hm : Matched scene.layout found base) (hnames : scene.layout.NamesCursors) {position : Nat}
    {element : Element} (helement : scene.layout.elements[position]? = some element) :
    ∃ address cell, state.locals element.cursor = some (some (.node (some address))) ∧
      base.store[address]? = some cell ∧ found.input[position]? = some cell.instr ∧
      skip base.store (position + 1) base.start = some cell.next := by
  obtain ⟨node, hskip, hlocal⟩ := hm.cursors position element helement
  obtain ⟨name, hname, -⟩ := hnames element (List.mem_of_getElem? helement)
  have hlt : position < found.input.length :=
    lt_of_lt_of_le (List.getElem?_eq_some_iff.1 helement).1 hm.enough
  obtain ⟨address, cell, hskip', hcell, hinstr, hnext⟩ :=
    hm.holds.skip_of_getElem? (List.getElem?_eq_getElem hlt)
  obtain rfl : node = some address := Option.some.inj (hskip.symm.trans hskip')
  refine ⟨address, cell, ?_, hcell, ?_, hnext⟩
  · rw [h.locals element.cursor fun node => ?_, hlocal]
    rw [hname]
    exact (nodeLocal_ne_cursorLocal node name).symm
  · rw [hinstr, List.getElem?_eq_getElem hlt]

/-- Building only adds to the store. -/
theorem Building.grown (h : Building base linked count built state) :
    base.store <+: state.store := by
  cases linked with
  | none => rw [h.cells.2]
  | some linked =>
    obtain ⟨init, last, -, hstore, -⟩ := h.cells
    rw [hstore]
    exact grown_extended

/-- **The end of a body puts what was built in the place of the match.** -/
theorem Building.splice (h : Building base linked count built state)
    (hm : Matched scene.layout found base) (hnames : scene.layout.NamesCursors)
    (hcount : arith.Reads scene.layout.consumed) :
    ∃ after, execAll arith (scene.splice linked).toStmts state = some (.returned 1 after) ∧
      base.store <+: after.store ∧
      Holds after.store after.start (built ++ found.input.drop scene.layout.consumed) := by
  obtain ⟨rest, hskip, hrest⟩ := hm.holds.skip scene.layout.consumed
  cases linked with
  | none =>
    obtain ⟨rfl, hstore⟩ := h.cells
    have hreplace : C.replace scene.layout.consumed none state
        = some (.int 1, { state with start := rest }) := by
      simp [C.replace, hstore, h.start, hskip]
    refine ⟨_, execAll_replace hcount (.name "NULL") (by simp [eval]) hreplace, h.grown, ?_⟩
    exact hrest.mono h.grown
  | some linked =>
    obtain ⟨init, last, rfl, hstore, hhead, hlast⟩ := h.cells
    -- The last cursor stands before what is left of the list.
    have hposition : scene.layout.elements[scene.layout.consumed - 1]?
        = some (scene.layout.elements.getLast scene.layout.nonempty) := by
      rw [Layout.consumed, ← List.getLast?_eq_getElem?, List.getLast?_eq_some_getLast]
    obtain ⟨address, cell, hcursor, hcell, -, hnext⟩ := h.cursor hm hnames hposition
    have hpos : 0 < scene.layout.consumed := List.length_pos_of_ne_nil scene.layout.nonempty
    rw [Nat.sub_add_cancel hpos, hskip] at hnext
    obtain rfl := Option.some.inj hnext
    have hmem := List.getLast_mem scene.layout.nonempty
    have heval : eval arith (.call "next" [.name scene.layout.lastCursor]) state
        = some (.node cell.next, state) :=
      eval_next (hnames.ne hmem (by decide)) (hnames.ne hmem (by decide)) hcursor
        (getElem?_mono hcell h.grown)
    have hset : setNext state.store (base.store.length + init.length) cell.next
        = some (extended base.store init last cell.next) := by
      rw [hstore]
      exact setNext_extended cell.next
    have hreplace : C.replace scene.layout.consumed (some base.store.length)
        { state with store := extended base.store init last cell.next }
          = some (.int 1, ⟨extended base.store init last cell.next, some base.store.length,
            state.locals⟩) :=
      replace_extended rfl (h.start.symm ▸ hskip) hrest
    refine ⟨_, (execAll_setNext heval hlast hset).trans
      (execAll_replace hcount (.name (nodeLocal linked.head)) (eval_nodeLocal hhead) hreplace),
      grown_extended, ?_⟩
    rw [List.append_assoc, List.singleton_append]
    exact holds_extended hrest

theorem Building.mono (h : Building base linked count built state) {later : Nat}
    (hle : count ≤ later) : Building base linked later built state :=
  ⟨h.start, h.locals, fun node hnode => h.fresh node (lt_of_le_of_lt hle hnode), h.cells⟩

end Steps

/-! ## The simulation -/

/-- **The outcome of code that means a rewriting of the match in state `base`**: it fails where the
rewriting is undefined, returns 0 and leaves the list alone where the rewriting gives up, and else
returns 1 with the instructions in the place of the matched ones.  Nodes that were there before
never change. -/
def Realizes (base : State) (found : Match) (consumed : Nat) (outcome : Option Outcome) :
    Option Rewriting → Prop
  | none => outcome = none
  | some .giveUp => ∃ after, outcome = some (.returned 0 after) ∧ after.start = base.start ∧
    base.store <+: after.store
  | some (.build instrs) => ∃ after, outcome = some (.returned 1 after) ∧
    base.store <+: after.store ∧
    Holds after.store after.start (instrs ++ found.input.drop consumed)

/-- Code that realizes a rewriting does not run on: it returns or fails. -/
theorem Realizes.not_running {base : State} {found : Match} {consumed : Nat}
    {outcome : Option Outcome} {rewriting : Option Rewriting}
    (h : Realizes base found consumed outcome rewriting) (state : State) :
    outcome ≠ some (.running state) := by
  rcases rewriting with _ | _ | instrs
  · rw [show outcome = none from h]
    simp
  · obtain ⟨after, houtcome, -⟩ := h
    simp [houtcome]
  · obtain ⟨after, houtcome, -⟩ := h
    simp [houtcome]

namespace Scene

mutual

/-- The number of nodes only grows. -/
theorem Compiles.le {scene : Scene} : ∀ {linked : Option Linked} {count total : Nat}
    {statements : List Node} {body : Body}, Compiles scene linked count statements body total →
    count ≤ total
  | _, _, _, _, _, .done _ _ => Nat.le_refl _
  | _, _, _, _, _, .construct _ _ hrest => Nat.le_of_succ_le hrest.le
  | _, _, _, _, _, .reuse _ _ hrest => Nat.le_of_succ_le hrest.le
  | _, _, _, _, _, .switch _ _ hrest => hrest.le
  | _, _, _, _, _, .ifChain _ _ _ _ hbody hmore => Nat.le_trans hbody.le hmore.le

/-- Compiling clauses only counts up. -/
theorem CompilesClauses.le {scene : Scene} : ∀ {linked : Option Linked} {count total : Nat}
    {clauses rest : List Node} {more : Branch},
    CompilesClauses scene linked count clauses rest more total → count ≤ total
  | _, _, _, _, _, _, .giveUp _ _ _ => Nat.le_refl _
  | _, _, _, _, _, _, .elseIf _ _ hbody hmore => Nat.le_trans hbody.le hmore.le
  | _, _, _, _, _, _, .otherwise _ hbody => hbody.le

end

/-- Making a node starts with its declaration. -/
theorem toStmts_build (linked : Option Linked) (node : Nat) (value : Value) (body : Body) :
    ∃ more, (build linked node value body).toStmts
      = .declareCode (nodeLocal node) value.toTerm :: more := by
  cases linked with
  | none => exact ⟨_, rfl⟩
  | some _ => exact ⟨_, rfl⟩

/-- Arguments that compile are expressions over captures. -/
theorem arguments_toExprs {scene : Scene} {nodes : List Node} {exprs : List Expr}
    (h : scene.arguments nodes = .ok exprs) :
    Node.toExprs nodes = .ok exprs ∧
      ∀ name ∈ Node.referencesAll nodes, scene.layout.isCaptured name = true := by
  have hall := arguments_eq_ok_iff.1 h
  refine ⟨Node.toExprs_eq_ok_iff.2 (hall.imp fun _ _ ha => (argument_eq_ok_iff.1 ha).2), ?_⟩
  clear h
  induction hall with
  | nil => simp [Node.referencesAll]
  | cons hfirst _ ih =>
    rw [Node.referencesAll, List.forall_mem_append]
    exact ⟨(argument_eq_ok_iff.1 hfirst).1, ih⟩

/-- The match in state `base` is one of the scene: its cursors are locals of their own, and elements
are called what the match side calls them. -/
structure Fits (scene : Scene) (found : Match) (base : State) : Prop extends
    Matched scene.layout found base where
  names : scene.layout.NamesCursors
  named : ∀ (name : String) (element : Element), scene.layout.named? name = some element →
    ∃ position : Nat, scene.layout.elements[position]? = some element ∧
      found.named? name = found.input[position]?

section Clause

variable {scene : Scene} {arith : Arith} {found : Match} {base state : State}
  {linked : Option Linked} {count : Nat} {built : List Instr}

/-- The local of a capture holds what was captured, while nodes are built. -/
theorem Fits.argument (hfits : scene.Fits found base)
    (h : Building base linked count built state) {name : String}
    (hname : scene.layout.isCaptured name = true) :
    state.locals (argumentLocal name) = some (some (.int (found.arguments name))) := by
  rw [h.locals _ fun node => (nodeLocal_ne_argumentLocal node name).symm]
  exact hfits.arguments name (List.contains_iff_mem.1 hname)

/-- **A statement that builds an instruction**, or has none to build. -/
theorem Fits.step (h : Building base linked count built state) {statement : Node}
    {rest : List Node} {value : Value} {instr? : Option Instr} {body : Body}
    (hstatement : scene.rewriting arith found statement = instr?.map fun instr => .build [instr])
    (heval : eval arith value.toTerm state
      = instr?.map fun instr => state.allocate ⟨instr, none⟩)
    (hrest : ∀ {instr : Instr} {next : State},
      Building base (some (extend linked (count + 1))) (count + 1) (built ++ [instr]) next →
      Realizes base found scene.layout.consumed (execAll arith body.toStmts next)
        (Rewriting.andThen (some (.build (built ++ [instr])))
          (scene.rewritingAll arith found rest))) :
    Realizes base found scene.layout.consumed
      (execAll arith (build linked (count + 1) value body).toStmts state)
      (Rewriting.andThen (some (.build built))
        (scene.rewritingAll arith found (statement :: rest))) := by
  rw [rewritingAll_cons, hstatement]
  cases instr? with
  | none =>
    obtain ⟨more, hmore⟩ := toStmts_build linked (count + 1) value body
    show _ = none
    rw [hmore, execAll, Stmt.exec, heval]
    rfl
  | some instr =>
    obtain ⟨next, hexec, hnext⟩ := h.build heval body
    rw [hexec, Option.map_some, ← Rewriting.andThen_assoc, Rewriting.andThen_build_build]
    exact hrest hnext

/-- **A clause of a chain**: its own code where its condition holds, the further clauses else. -/
theorem Fits.clause (hfits : scene.Fits found base) (h : Building base linked count built state)
    {clause : Node} {clauses statements rest : List Node} {condition : Expr} {yes no : List Stmt}
    (hclause : clause.kind = .ifClause)
    (hcondition : scene.condition clause = .ok (condition, statements))
    (hyes : Realizes base found scene.layout.consumed (execAll arith yes state)
      (Rewriting.andThen (some (.build built))
        (scene.rewritingAll arith found (statements ++ rest))))
    (hno : Realizes base found scene.layout.consumed (execAll arith no state)
      (Rewriting.andThen (some (.build built))
        (Rewriting.andThen (scene.firstClause arith found clauses)
        (scene.rewritingAll arith found rest)))) :
    Realizes base found scene.layout.consumed
      (execAll arith [.branch condition.toTerm yes no] state)
      (Rewriting.andThen (some (.build built))
        (Rewriting.andThen (scene.firstClause arith found (clause :: clauses))
        (scene.rewritingAll arith found rest))) := by
  obtain ⟨expression, hchildren, -, hargument⟩ := condition_eq_ok_iff.1 hcondition
  obtain ⟨hcaptured, hexpr⟩ := argument_eq_ok_iff.1 hargument
  have heval : eval arith condition.toTerm state
      = (expression.value arith found.arguments).map (.int ·, state) :=
    eval_toTerm expression hexpr fun name hname => hfits.argument h (hcaptured name hname)
  rw [firstClause_ifClause hclause hchildren]
  cases hvalue : expression.value arith found.arguments with
  | none =>
    rw [hvalue] at heval
    show _ = none
    simp [execAll, Stmt.exec, heval]
  | some value =>
    rw [hvalue] at heval
    rw [Option.bind_some]
    by_cases hzero : value = 0
    · rw [if_pos hzero]
      rwa [execAll_branch heval (if_pos hzero) hno.not_running]
    · rw [if_neg hzero, ← rewritingAll_append]
      rwa [execAll_branch heval (if_neg hzero) hyes.not_running]

end Clause

mutual

/-- **Running code does to the list what the statements it comes from say.** -/
theorem Compiles.realizes {scene : Scene} {arith : Arith} {found : Match} {base : State}
    (hfits : scene.Fits found base) (hcount : arith.Reads scene.layout.consumed) :
    ∀ {linked : Option Linked} {count total : Nat}
    {statements : List Node} {body : Body}, Compiles scene linked count statements body total →
    ∀ {built : List Instr} {state : State}, Building base linked count built state →
    Realizes base found scene.layout.consumed (execAll arith body.toStmts state)
      (Rewriting.andThen (some (.build built)) (scene.rewritingAll arith found statements))
  | _, _, _, _, _, .done linked count, built, state, h => by
    rw [rewritingAll_nil, Rewriting.andThen_build_build, List.append_nil]
    exact h.splice hfits.toMatched hfits.names hcount
  | _, _, _, _, _, .construct hkind harguments hrest, built, state, h => by
    obtain ⟨hexprs, hcaptured⟩ := arguments_toExprs harguments
    refine Fits.step h ?_ (eval_make _ hexprs fun name hname =>
      hfits.argument h (hcaptured name hname)) (hrest.realizes hfits hcount)
    rw [rewriting_construct hkind, Option.map_map]
    rfl
  | _, _, _, _, _, @Compiles.reuse _ _ _ _ statement _ _ _ hkind helement hrest, built, state,
      h => by
    obtain ⟨position, hposition, hnamed⟩ := hfits.named _ _ helement
    obtain ⟨address, cell, hcursor, hcell, hinstr, -⟩ :=
      h.cursor hfits.toMatched hfits.names hposition
    have hmem := List.mem_of_getElem? hposition
    have hrewriting : scene.rewriting arith found statement
        = (some cell.instr).map fun instr => .build [instr] := by
      rw [rewriting_reuse hkind, hnamed, hinstr]
    exact Fits.step h hrewriting (eval_copy (hfits.names.ne hmem (by decide))
      (hfits.names.ne hmem (by decide)) hcursor (getElem?_mono hcell h.grown))
      (hrest.realizes hfits hcount)
  | _, _, _, _, _, .switch hkind hclause hrest, built, state, h => by
    rw [rewritingAll_cons, rewriting_switch hkind hclause, ← rewritingAll_append]
    exact hrest.realizes hfits hcount h
  | _, _, _, _, _, .ifChain hkind hchildren hclause hcondition hbody hmore, built, state, h => by
    rw [rewritingAll_cons, rewriting_ifChain hkind, hchildren]
    exact hfits.clause h hclause hcondition (hbody.realizes hfits hcount h)
      (hmore.realizes hfits hcount (h.mono hbody.le))

/-- **The code of clauses does what the first one that holds does**, and then what stands behind the
chain. -/
theorem CompilesClauses.realizes {scene : Scene} {arith : Arith} {found : Match} {base : State}
    (hfits : scene.Fits found base) (hcount : arith.Reads scene.layout.consumed) :
    ∀ {linked : Option Linked} {count total : Nat}
    {clauses rest : List Node} {more : Branch},
    CompilesClauses scene linked count clauses rest more total →
    ∀ {built : List Instr} {state : State}, Building base linked count built state →
    Realizes base found scene.layout.consumed (execAll arith more.toStmts state)
      (Rewriting.andThen (some (.build built))
        (Rewriting.andThen (scene.firstClause arith found clauses)
        (scene.rewritingAll arith found rest)))
  | _, _, _, _, _, _, .giveUp _ _ _, built, state, h => by
    rw [firstClause_nil, Rewriting.andThen_giveUp]
    exact ⟨state, execAll_giveUp, h.start, h.grown⟩
  | _, _, _, _, _, _, .elseIf hclause hcondition hbody hmore, built, state, h =>
    hfits.clause h hclause hcondition (hbody.realizes hfits hcount h)
      (hmore.realizes hfits hcount (h.mono hbody.le))
  | _, _, _, _, _, _, .otherwise hclause hbody, built, state, h => by
    rw [firstClause_elseClause hclause, ← rewritingAll_append]
    exact hbody.realizes hfits hcount h

end

end Scene

end Peephole

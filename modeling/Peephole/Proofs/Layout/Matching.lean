import Peephole.Proofs.Layout.Acceptance
import Peephole.Proofs.Layout.Locals
import Peephole.Proofs.Replacement.Simulation

/-!
# Proofs/Layout/Matching — running the lines of a match side

The lines of a match side fall through exactly on the instructions that the match side accepts, and
return 0 on all others.  Lines belong to elements: `Reached` is what holds before the lines of an
element, and running them either leads to the next element or gives up (`Reached.element`).  The
lines of all elements follow by induction (`LaidOut.run`).
-/

namespace Peephole

open C

namespace Layout

variable {arith : Arith} {state : State} {names : List String} {bindings : List Binding}
  {chosen : List String} {position : Nat} {numbers after : String → Option Nat}
  {taken taken' : List String} {previous : Option String} {node : Node} {cursor : String}
  {locals : List String} {opcode : Option Opcode} {rest : List Stmt}

/-! ## Guards -/

/-- What a guard asks of an instruction, when it fetches `count` arguments. -/
def Asks (chosen : List String) (count : Nat) (opcode : Option Opcode) (instr : Instr) : Prop :=
  ∀ asked ∈ opcode, instr.opcode = asked.resolve chosen ∧ instr.arguments.length = count

/-- **The guard of an element asks for what the element takes.** -/
theorem takes_iff_of_elementOpcode {hasCaptures : Bool} (helement : IsElement node)
    (hopcode : elementOpcode bindings position node hasCaptures = .ok opcode)
    (hlength : chosen.length = bindings.length) (instr : Instr) :
    node.Takes (Binding.fixed bindings chosen position) instr ↔
      Asks chosen (node.childTexts.drop 1).length opcode instr := by
  obtain ⟨hchildren, rfl⟩ | ⟨body, captures, hchildren, hkind, hasked⟩ :=
    elementOpcode_cases helement hopcode
  · simp [Node.Takes, Asks, hchildren]
  have hcount : (node.childTexts.drop 1).length = captures.length := by
    simp [Node.childTexts, hchildren]
  have htakes : node.Takes (Binding.fixed bindings chosen position) instr ↔
      instr.opcode ∈ (Binding.fixed bindings chosen position).getD [body.text] ∧
        instr.arguments.length = captures.length := by
    simp [Node.Takes, hchildren, hkind]
  rw [htakes, hcount, Binding.fixed, Binding.fixed?_eq]
  obtain ⟨slot, hslot, rfl⟩ | ⟨hslot, rfl, -⟩ := hasked
  · have hlt : slot < chosen.length := by
      rw [hlength]
      exact (List.findIdx?_eq_some_iff_getElem.1 hslot).1
    simp [hslot, Asks, Opcode.resolve, hlt]
  · simp [hslot, Asks, Opcode.resolve]

/-- An element that takes any instruction captures nothing. -/
theorem length_captures_of_elementOpcode {hasCaptures : Bool} (helement : IsElement node)
    (hopcode : elementOpcode bindings position node hasCaptures = .ok none) :
    (node.childTexts.drop 1).length = 0 := by
  obtain ⟨hchildren, -⟩ | ⟨_, _, -, -, ⟨_, -, hsome⟩ | ⟨-, hsome, -⟩⟩ :=
    elementOpcode_cases helement hopcode
  · simp [Node.childTexts, hchildren]
  · cases hsome
  · cases hsome

theorem eval_cursorLocal {name : String} {value : C.Value}
    (h : state.locals (cursorLocal name) = some (some value)) :
    eval arith (.name (cursorLocal name)) state = some (value, state) :=
  eval_name (cursorLocal_ne (by decide)) (cursorLocal_ne (by decide)) h

/-- Behind the end of the list, every guard gives up. -/
theorem execAll_guardStep_end
    (hcursor : eval arith (.name cursor) state = some (.node none, state))
    (hlocals : ∀ name ∈ locals, (state.locals name).isSome) :
    execAll arith ((guardStep cursor locals opcode).toStmt chosen :: rest) state
      = some (.returned 0 state) := by
  cases opcode with
  | none =>
    have heval : eval arith (.binary (.condition .eq) (.name cursor) (.name "NULL")) state
        = some (.int 1, state) := by
      rw [eval, hcursor]
      simp [eval, binaryValue, truth]
    exact execAll_guard heval
  | some asked =>
    have hcode : isCode (asked.resolve chosen) none locals state = some (.int 0, state) := rfl
    exact execAll_guard (eval_isCode hcursor hlocals hcode)

/-- Locals have been given values, and nothing else has changed. -/
structure Fetched (state : State) (locals : List String) (values : List Int) (fetched : State) :
    Prop where
  store : fetched.store = state.store
  start : fetched.start = state.start
  values : List.Forall₂ (fun name value => fetched.locals name = some (some (.int value))) locals
    values
  others : ∀ name, name ∉ locals → fetched.locals name = state.locals name

/-- **At an instruction, a guard fetches the arguments or gives up.**  One that takes any
instruction fetches none, whatever the arguments. -/
theorem execAll_guardStep {address : Nat} {cell : Cell}
    (hcursor : eval arith (.name cursor) state = some (.node (some address), state))
    (hcell : state.store[address]? = some cell) (hnodup : locals.Nodup)
    (hlocals : ∀ name ∈ locals, (state.locals name).isSome) (hany : opcode = none → locals = []) :
    (Asks chosen locals.length opcode cell.instr ∧ ∃ fetched values,
      execAll arith ((guardStep cursor locals opcode).toStmt chosen :: rest) state
        = execAll arith rest fetched ∧
      (∀ texts : List String, texts.length = locals.length →
        texts.zip cell.instr.arguments = texts.zip values) ∧
      Fetched state locals values fetched) ∨
    ¬ Asks chosen locals.length opcode cell.instr ∧
      execAll arith ((guardStep cursor locals opcode).toStmt chosen :: rest) state
        = some (.returned 0 state) := by
  cases opcode with
  | none =>
    obtain rfl := hany rfl
    have heval : eval arith (.binary (.condition .eq) (.name cursor) (.name "NULL")) state
        = some (.int 0, state) := by
      rw [eval, hcursor]
      simp [eval, binaryValue, truth]
    refine .inl ⟨by simp [Asks], state, [], execAll_guard heval, ?_, rfl, rfl, .nil, fun _ _ => rfl⟩
    intro texts htexts
    rw [List.length_eq_zero_iff.1 htexts]
    rfl
  | some asked =>
    by_cases hsame : cell.instr.opcode = asked.resolve chosen ∧
        cell.instr.arguments.length = locals.length
    · obtain ⟨fetched, hassign, hstore, hstart, hvalues, hothers⟩ :=
        assignAll_zip hnodup hsame.2.symm hlocals
      have hcode : isCode (asked.resolve chosen) (some address) locals state
          = some (.int 1, fetched) := by
        simp [isCode, hcell, hsame, hassign]
      refine .inl ⟨?_, fetched, cell.instr.arguments,
        execAll_guard (eval_isCode hcursor hlocals hcode), fun _ _ => rfl, hstore, hstart, hvalues,
        hothers⟩
      rintro _ ⟨⟩
      exact hsame
    · have hcode : isCode (asked.resolve chosen) (some address) locals state
          = some (.int 0, state) := by
        simp [isCode, hcell, hsame]
      refine .inr ⟨fun hall => hsame (hall asked rfl), ?_⟩
      exact execAll_guard (eval_isCode hcursor hlocals hcode)

/-! ## Equalities -/

/-- The captures so far agree, and the first of each name is in its local. -/
structure Knows (numbers : String → Option Nat) (seen : List (String × Int)) (state : State) :
    Prop where
  agree : Agree seen
  numbered : ∀ name, numbers name = none ↔ seen.lookup name = none
  value : ∀ name value, seen.lookup name = some value →
    state.locals (argumentLocal name) = some (some (.int value))

section Knows

variable {seen : List (String × Int)} {name : String} {value : Int}

/-- The first capture of a name makes its value known. -/
theorem Knows.first (h : Knows numbers seen state) (hnew : numbers name = none) (number : Nat)
    (hlocal : state.locals (argumentLocal name) = some (some (.int value))) :
    Knows (Function.update numbers name (some number)) (seen ++ [(name, value)]) state := by
  have hlookup := (h.numbered name).1 hnew
  refine ⟨h.agree.concat fun first hfirst => ?_, fun other => ?_, fun other found hfound => ?_⟩
  · exact absurd (List.lookup_eq_none_iff.1 hlookup _ hfirst) (by simp)
  · rw [lookup_concat]
    by_cases ho : other = name
    · simp [ho]
    · simp [ho, h.numbered other]
  · rw [lookup_concat] at hfound
    by_cases ho : other = name
    · subst ho
      simp [hlookup] at hfound
      rw [← hfound, hlocal]
    · exact h.value other found (by simpa [ho] using hfound)

/-- A later capture of a name that has the known value adds nothing new. -/
theorem Knows.again (h : Knows numbers seen state) (hlookup : seen.lookup name = some value)
    (number : Nat) :
    Knows (Function.update numbers name (some number)) (seen ++ [(name, value)]) state := by
  refine ⟨h.agree.concat fun first hfirst => ?_, fun other => ?_, fun other found hfound => ?_⟩
  · exact h.agree name first value hfirst (mem_of_lookup hlookup)
  · rw [lookup_concat]
    by_cases ho : other = name
    · simp [ho]
    · simp [ho, h.numbered other]
  · rw [lookup_concat] at hfound
    by_cases ho : other = name
    · subst ho
      exact h.value other found (by simpa [hlookup] using hfound)
    · exact h.value other found (by simpa [ho] using hfound)

/-- `if (later != first) return 0;` -/
theorem execAll_equal {later first : String} {laterValue firstValue : Int}
    (hlater : state.locals (argumentLocal later) = some (some (.int laterValue)))
    (hfirst : state.locals (argumentLocal first) = some (some (.int firstValue))) :
    execAll arith ((MatchStep.equal (argumentLocal later) (argumentLocal first)).toStmt chosen ::
        rest) state
      = if laterValue = firstValue then execAll arith rest state
        else some (.returned 0 state) := by
  have heval : eval arith (.binary (.condition .ne) (.name (argumentLocal later))
      (.name (argumentLocal first))) state
      = (arith.operate (.condition .ne) (some laterValue) (some firstValue)).map (.int ·, state) :=
    eval_binary _ (eval_argumentLocal hlater) (eval_argumentLocal hfirst)
  rw [MatchStep.toStmt, execAll_guard heval]
  by_cases hvalue : laterValue = firstValue <;> simp [hvalue, truth]

/-- **The equalities of an element hold exactly if its captures agree** with each other and with
those before. -/
theorem Capturing.execAll_equalities {texts : List String} {equalities : List MatchStep}
    (h : Capturing names numbers texts locals equalities after) {values : List Int}
    (hvalues : List.Forall₂ (fun name value => state.locals name = some (some (.int value)))
      locals values) (hknows : Knows numbers seen state) :
    (Knows after (seen ++ texts.zip values) state ∧
      execAll arith (equalities.map (MatchStep.toStmt chosen) ++ rest) state
        = execAll arith rest state) ∨
    ¬ Agree (seen ++ texts.zip values) ∧
      execAll arith (equalities.map (MatchStep.toStmt chosen) ++ rest) state
        = some (.returned 0 state) := by
  induction h generalizing seen values with
  | done =>
    refine .inl ⟨?_, rfl⟩
    rwa [List.zip_nil_left, List.append_nil]
  | @first _ _ name _ _ _ hnew _ ih =>
    obtain _ | @⟨_, value, _, values, hvalue, hmore⟩ := hvalues
    have hzip : ∀ more : List String, seen ++ (name :: more).zip (value :: values)
        = seen ++ [(name, value)] ++ more.zip values := fun more => by simp
    rw [hzip]
    exact ih hmore (hknows.first hnew 1 hvalue)
  | @again _ _ name used _ _ _ hused _ ih =>
    obtain _ | @⟨_, value, _, values, hvalue, hmore⟩ := hvalues
    have hzip : ∀ more : List String, seen ++ (name :: more).zip (value :: values)
        = seen ++ [(name, value)] ++ more.zip values := fun more => by simp
    obtain ⟨first, hlookup⟩ : ∃ first, seen.lookup name = some first := by
      refine Option.ne_none_iff_exists'.1 fun hnone => ?_
      rw [(hknows.numbered name).2 hnone] at hused
      simp at hused
    rw [hzip, List.map_cons, List.cons_append, execAll_equal hvalue (hknows.value _ _ hlookup)]
    by_cases hequal : value = first
    · subst hequal
      rw [if_pos rfl]
      exact ih hmore (hknows.again hlookup _)
    · rw [if_neg hequal]
      refine .inr ⟨fun hagree => hequal ?_, rfl⟩
      refine hagree name value first ?_ ?_
      · simp
      · simp [mem_of_lookup hlookup]

end Knows

/-! ## One element -/

/-- The cursor of the element before `position` points at its instruction. -/
def Behind (input : List Instr) (state : State) (position : Nat) : Option String → Prop
  | none => position = 0
  | some cursor => ∃ name before node, cursor = cursorLocal name ∧ position = before + 1 ∧
    before < input.length ∧ skip state.store before state.start = some node ∧
    state.locals cursor = some (some (.node node))

/-- **What holds before the lines of an element**, when those before have fallen through. -/
structure Reached (names : List String) (input : List Instr) (position : Nat)
    (previous : Option String) (taken : List String) (numbers : String → Option Nat)
    (seen : List (String × Int)) (state : State) : Prop where
  holds : Holds state.store state.start input
  behind : Behind input state position previous
  /-- What is fresh is not declared. -/
  clear : ∀ name, Fresh names position taken numbers name → state.locals name = none
  knows : Knows numbers seen state

/-- The lines that lead to `after` touch fresh locals only. -/
structure Continues (names : List String) (position : Nat) (taken : List String)
    (numbers : String → Option Nat) (state after : State) : Prop where
  store : after.store = state.store
  start : after.start = state.start
  frame : ∀ name, ¬ Fresh names position taken numbers name →
    after.locals name = state.locals name

/-- One element after the other touches only what was fresh before the first. -/
theorem Continues.trans {next last : State} {numbers' : String → Option Nat}
    (h : Continues names position taken numbers state next)
    (hlast : Continues names (position + 1) taken' numbers' next last)
    (hfresh : ∀ name, Fresh names (position + 1) taken' numbers' name →
      Fresh names position taken numbers name) :
    Continues names position taken numbers state last where
  store := hlast.store.trans h.store
  start := hlast.start.trans h.start
  frame name hname := by rw [hlast.frame name (mt (hfresh name) hname), h.frame name hname]

/-- Fetching arguments into fresh locals touches nothing else. -/
theorem Continues.fetched {declared fetched : State} {values : List Int}
    (h : Continues names position taken numbers state declared)
    (hfetched : Fetched declared locals values fetched)
    (hfresh : ∀ name ∈ locals, Fresh names position taken numbers name) :
    Continues names position taken numbers state fetched where
  store := hfetched.store.trans h.store
  start := hfetched.start.trans h.start
  frame name hname := by
    rw [hfetched.others name (mt (hfresh name) hname), h.frame name hname]

section Element

variable {input : List Instr} {seen : List (String × Int)} {equalities : List MatchStep}

/-- A cursor starts at the instruction of its element. -/
theorem Reached.execAll_cursor
    (h : Reached names input position previous taken numbers seen state) {nodeAt : Option Nat}
    (hskip : skip state.store position state.start = some nodeAt)
    (hnew : state.locals cursor = none) :
    execAll arith ((MatchStep.cursor cursor previous).toStmt chosen :: rest) state
      = execAll arith rest (state.set cursor (some (.node nodeAt))) := by
  have hbehind := h.behind
  cases previous with
  | none =>
    obtain rfl : position = 0 := hbehind
    refine execAll_declareCode ?_ hnew
    obtain rfl := Option.some.inj hskip
    simp [eval]
  | some previous =>
    obtain ⟨name, before, node, rfl, rfl, hlt, hnode, hlocal⟩ := hbehind
    obtain ⟨address, cell, hskip', hcell, -, hnext⟩ :=
      h.holds.skip_of_getElem? (List.getElem?_eq_getElem hlt)
    obtain rfl := Option.some.inj (hnode.symm.trans hskip')
    obtain rfl := Option.some.inj (hskip.symm.trans hnext)
    exact execAll_declareCode
      (eval_next (cursorLocal_ne (by decide)) (cursorLocal_ne (by decide)) hlocal hcell) hnew

/-- **The declarations of an element**: its cursor and the locals of its captures. -/
theorem Reached.declares (h : Reached names input position previous taken numbers seen state)
    (helement : IsElement node) (hcursor : PlacesCursor position taken node cursor taken')
    {texts : List String} (hcaptures : Capturing names numbers texts locals equalities after)
    (htexts : ∀ text ∈ texts, text ∈ names) {nodeAt : Option Nat}
    (hskip : skip state.store position state.start = some nodeAt) :
    ∃ declared, execAll arith ((MatchStep.cursor cursor previous).toStmt chosen ::
        (locals.map .declareInt ++ rest)) state = execAll arith rest declared ∧
      Continues names position taken numbers state declared ∧
      declared.locals cursor = some (some (.node nodeAt)) ∧
      (∀ name ∈ locals, (declared.locals name).isSome) ∧
      ∀ name, Fresh names (position + 1) taken' after name → declared.locals name = none := by
  have hlocal : ∀ name ∈ locals, Fresh names position taken numbers name ∧ name ≠ cursor :=
    fun name hname => hcursor.fresh_of_fresh helement (hcaptures.fresh htexts name hname)
  obtain ⟨declared, hexec, hstore, hstart, hdeclared, hothers⟩ :=
    @execAll_declareInts arith (state.set cursor (some (.node nodeAt))) locals rest
      (hcaptures.nodup htexts) fun name hname => by
        rw [State.locals_set_of_ne state _ (hlocal name hname).2]
        exact h.clear name (hlocal name hname).1
  have hother : ∀ name, name ≠ cursor → name ∉ locals →
      declared.locals name = state.locals name := fun name hne hnotin => by
    rw [hothers name hnotin, State.locals_set_of_ne state _ hne]
  refine ⟨declared, ?_, ⟨hstore, hstart, fun name hname => ?_⟩, ?_, hdeclared, fun name hname => ?_⟩
  · rw [h.execAll_cursor hskip (h.clear cursor (hcursor.fresh helement)), hexec]
  · refine hother name ?_ fun hmem => hname (hlocal name hmem).1
    rintro rfl
    exact hname (hcursor.fresh helement)
  · rw [hothers cursor fun hmem => (hlocal cursor hmem).2 rfl, State.locals_set_self]
  · obtain ⟨hbetween, hnotin⟩ := hcaptures.fresh_of_fresh htexts hname
    obtain ⟨hbefore, hne⟩ := hcursor.fresh_of_fresh helement hbetween
    rw [hother name hne hnotin, h.clear name hbefore]

/-- What is known stays known. -/
theorem Reached.knows_of_continues
    (h : Reached names input position previous taken numbers seen state) {later : State}
    (hcontinues : Continues names position taken numbers state later) :
    Knows numbers seen later := by
  refine ⟨h.knows.agree, h.knows.numbered, fun name value hvalue => ?_⟩
  have hlocal := h.knows.value name value hvalue
  rw [hcontinues.frame _ fun hfresh => ?_, hlocal]
  rw [h.clear _ hfresh] at hlocal
  simp at hlocal

/-- The next element is reached with the cursor of this one at its instruction. -/
theorem Reached.next (h : Reached names input position previous taken numbers seen state)
    (hlt : position < input.length) {later : State} {seen' : List (String × Int)} {name : String}
    (hcontinues : Continues names position taken numbers state later) {nodeAt : Option Nat}
    (hskip : skip state.store position state.start = some nodeAt)
    (hcursor : later.locals (cursorLocal name) = some (some (.node nodeAt)))
    (hclear : ∀ other, Fresh names (position + 1) taken' after other → later.locals other = none)
    (hknows : Knows after seen' later) :
    Reached names input (position + 1) (some (cursorLocal name)) taken' after seen' later := by
  refine ⟨?_, ⟨name, position, nodeAt, rfl, rfl, hlt, ?_, hcursor⟩, hclear, hknows⟩
  · rw [hcontinues.store, hcontinues.start]
    exact h.holds
  · rw [hcontinues.store, hcontinues.start]
    exact hskip

/-- The statements for an element: its cursor, its locals, its test, and its equalities. -/
theorem toStmt_elementSteps :
    (elementSteps previous cursor locals opcode equalities).map (MatchStep.toStmt chosen) ++ rest
      = (MatchStep.cursor cursor previous).toStmt chosen :: (locals.map .declareInt ++
        (guardStep cursor locals opcode).toStmt chosen ::
          (equalities.map (MatchStep.toStmt chosen) ++ rest)) := by
  simp [elementSteps, MatchStep.toStmt, Function.comp_def]

/-- **The lines of an element lead to the next element if it takes its instruction** and its
captures agree with all before, and give up if not. -/
theorem Reached.element (h : Reached names input position previous taken numbers seen state)
    (helement : IsElement node) (hcursor : PlacesCursor position taken node cursor taken')
    (hcaptures : Capturing names numbers (node.childTexts.drop 1) locals equalities after)
    (htexts : ∀ text ∈ node.childTexts.drop 1, text ∈ names)
    (hopcode : elementOpcode bindings position node (!locals.isEmpty) = .ok opcode)
    (hlength : chosen.length = bindings.length) :
    (∃ instr more next, input.drop position = instr :: more ∧
      node.Takes (Binding.fixed bindings chosen position) instr ∧
      execAll arith ((elementSteps previous cursor locals opcode equalities).map
        (MatchStep.toStmt chosen) ++ rest) state = execAll arith rest next ∧
      Reached names input (position + 1) (some cursor) taken' after (seen ++ node.captured instr)
        next ∧
      Continues names position taken numbers state next) ∨
    (∀ instr more, input.drop position = instr :: more →
      node.Takes (Binding.fixed bindings chosen position) instr →
      ¬ Agree (seen ++ node.captured instr)) ∧
    ∃ last, execAll arith ((elementSteps previous cursor locals opcode equalities).map
        (MatchStep.toStmt chosen) ++ rest) state = some (.returned 0 last) ∧
      last.store = state.store ∧ last.start = state.start := by
  obtain ⟨nodeAt, hskip, hdrop⟩ := h.holds.skip position
  rw [toStmt_elementSteps]
  obtain ⟨declared, hexec, hcontinues, hcursorAt, hlocals, hclear⟩ :=
    h.declares helement hcursor hcaptures htexts hskip
  rw [hexec]
  obtain ⟨name, rfl, -⟩ := hcursor.eq_cursorLocal helement
  have hcount := hcaptures.length_eq
  have htakes := takes_iff_of_elementOpcode helement hopcode hlength
  have hany : opcode = none → locals = [] := fun hnone => by
    rw [hnone] at hopcode
    exact List.length_eq_zero_iff.1
      (hcount.trans (length_captures_of_elementOpcode helement hopcode))
  have hfresh : ∀ other ∈ locals, Fresh names position taken numbers other ∧
      other ≠ cursorLocal name := fun other hmem =>
    hcursor.fresh_of_fresh helement (hcaptures.fresh htexts other hmem)
  generalize hinput : input.drop position = remaining at hdrop ⊢
  cases hdrop with
  | nil =>
    exact .inr ⟨by simp, declared, execAll_guardStep_end (eval_cursorLocal hcursorAt) hlocals,
      hcontinues.store, hcontinues.start⟩
  | @cons address cell more hcell _ =>
    have hlt : position < input.length := by
      by_contra hle
      rw [List.drop_eq_nil_of_le (Nat.le_of_not_lt hle)] at hinput
      simp at hinput
    rw [← hcontinues.store] at hcell
    obtain ⟨hasks, fetched, values, hguard, hzip, hfetched⟩ | ⟨hasks, hguard⟩ :=
      execAll_guardStep (eval_cursorLocal hcursorAt) hcell (hcaptures.nodup htexts) hlocals hany
    · have hcontinues' := hcontinues.fetched hfetched fun other hmem => (hfresh other hmem).1
      have hcaptured : node.captured cell.instr = (node.childTexts.drop 1).zip values :=
        hzip _ hcount.symm
      obtain ⟨hknows, hequal⟩ | ⟨hagree, hequal⟩ :=
        hcaptures.execAll_equalities hfetched.values (h.knows_of_continues hcontinues')
      · refine .inl ⟨cell.instr, more, fetched, rfl, (htakes _).2 (hcount ▸ hasks),
          hguard.trans hequal, h.next hlt hcontinues' hskip ?_ (fun other hother => ?_)
            (hcaptured ▸ hknows), hcontinues'⟩
        · rw [hfetched.others _ fun hmem => (hfresh _ hmem).2 rfl, hcursorAt]
        · rw [hfetched.others other (hcaptures.fresh_of_fresh htexts hother).2, hclear other hother]
      · refine .inr ⟨fun instr more' heq _ => ?_, fetched, hguard.trans hequal, hcontinues'.store,
          hcontinues'.start⟩
        obtain ⟨rfl, rfl⟩ := List.cons.inj heq
        rwa [hcaptured]
    · refine .inr ⟨fun instr more' heq htake => ?_, declared, hguard, hcontinues.store,
        hcontinues.start⟩
      obtain ⟨rfl, rfl⟩ := List.cons.inj heq
      exact absurd (hcount ▸ (htakes _).1 htake) hasks

end Element

/-! ## All elements -/

/-- **The lines of elements fall through exactly if the elements accept the instructions.**  Then
every cursor is at its instruction and the first captures are in their locals. -/
theorem LaidOut.run {nodes : List Node} {steps : List MatchStep} {elements : List Element}
    (h : LaidOut names bindings position previous taken numbers nodes steps elements after)
    (helements : ∀ node ∈ nodes, IsElement node)
    (htexts : ∀ node ∈ nodes, ∀ text ∈ node.childTexts.drop 1, text ∈ names)
    (hlength : chosen.length = bindings.length) {input : List Instr} {seen : List (String × Int)}
    (hreached : Reached names input position previous taken numbers seen state) :
    (AcceptsFrom (Binding.fixed bindings chosen) position seen nodes (input.drop position) ∧
      ∃ last, execAll arith (steps.map (MatchStep.toStmt chosen)) state = some (.running last) ∧
        Continues names position taken numbers state last ∧
        Knows after (seen ++ capturesOf nodes (input.drop position)) last ∧
        ∀ (index : Nat) (element : Element), elements[index]? = some element →
          ∃ node, skip state.store (position + index) state.start = some node ∧
            last.locals element.cursor = some (some (.node node))) ∨
    ¬ AcceptsFrom (Binding.fixed bindings chosen) position seen nodes (input.drop position) ∧
      ∃ last, execAll arith (steps.map (MatchStep.toStmt chosen)) state = some (.returned 0 last) ∧
        last.store = state.store ∧ last.start = state.start := by
  induction h generalizing state seen with
  | done =>
    refine .inl ⟨acceptsFrom_nil.2 hreached.knows.agree, state, rfl, ⟨rfl, rfl, fun _ _ => rfl⟩, ?_,
      by simp⟩
    rw [capturesOf, List.zip_nil_left, List.flatMap_nil, List.append_nil]
    exact hreached.knows
  | @element position _ taken taken' numbers numbers' _ _ _ _ cursor _ _ _ _ _ _ hcursor hcaptures
      hopcode _ ih =>
    rw [List.forall_mem_cons] at helements htexts
    rw [List.map_append]
    obtain ⟨instr, more, next, hdrop, htakes, hexec, hnext, hcontinues⟩ |
        ⟨hrefuses, last, hexec, hlast⟩ :=
      hreached.element helements.1 hcursor hcaptures htexts.1 hopcode hlength
    · have hmore : input.drop (position + 1) = more := by
        rw [← List.drop_drop, hdrop]
        rfl
      have hih := ih helements.2 htexts.2 hnext
      rw [hmore] at hih
      rw [hexec, hdrop, acceptsFrom_cons_cons]
      obtain ⟨haccepts, last, hrun, hcontinues', hknows, hcursors⟩ |
        ⟨hrefuses, last, hrun, hlast⟩ := hih
      · have hfresh : ∀ name, Fresh names (position + 1) taken' numbers' name →
            Fresh names position taken numbers name ∧ name ≠ cursor := fun name hname =>
          hcursor.fresh_of_fresh helements.1 (hcaptures.fresh_of_fresh htexts.1 hname).1
        refine .inl ⟨⟨htakes, haccepts⟩, last, hrun,
          hcontinues.trans hcontinues' fun name hname => (hfresh name hname).1, ?_, ?_⟩
        · rw [List.append_assoc] at hknows
          simpa [capturesOf] using hknows
        · rintro (_ | index) element hget
          · obtain rfl := Option.some.inj hget
            obtain ⟨_, before, node, -, hbefore, -, hskip, hlocal⟩ := hnext.behind
            obtain rfl := Nat.succ.inj hbefore
            rw [hcontinues.store, hcontinues.start] at hskip
            refine ⟨node, hskip, ?_⟩
            rw [hcontinues'.frame cursor fun hname => (hfresh cursor hname).2 rfl, hlocal]
          · obtain ⟨node, hskip, hlocal⟩ := hcursors index element hget
            rw [hcontinues.store, hcontinues.start, Nat.add_assoc, Nat.add_comm 1] at hskip
            exact ⟨node, hskip, hlocal⟩
      · refine .inr ⟨fun haccepts => hrefuses haccepts.2, last, hrun, ?_, ?_⟩
        · rw [hlast.1, hcontinues.store]
        · rw [hlast.2, hcontinues.start]
    · refine .inr ⟨fun haccepts => ?_, last, hexec, hlast⟩
      cases hdrop : input.drop position with
      | nil =>
        rw [hdrop] at haccepts
        exact not_acceptsFrom_cons_nil haccepts
      | cons instr more =>
        rw [hdrop, acceptsFrom_cons_cons] at haccepts
        exact hrefuses instr more hdrop haccepts.1 haccepts.2.agree_seen

end Layout

end Peephole

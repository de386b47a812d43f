import Peephole.Proofs.Replacement.Congruence

/-!
# Proofs/Replacement/Calls — the compilation of statements ends

Statements are compiled by calls.  A call goes through its statements and builds their nodes, up to
the first switch or chain, where it makes calls of its own: on the chosen case, or on each clause in
turn, with the statements behind.  Such a list is put together on the spot and can be longer than
the list it comes from, yet it has fewer nodes (`GoesOn.sizeAll_lt`).

`Scene.activate` is one call, whatever the calls it makes come to.  `Scene.unroll` nests calls to a
given depth and records them; deeper ones are cut off, and a run that loses one has no outcome.
With more depth than nodes none is lost: the recursion ends, in what `compile` yields
(`compile_ends`).
-/

namespace Peephole

/-! ## Runs -/

/-- A call that is made while statements are compiled. -/
structure Call where
  /-- The statements of the call that makes it. -/
  caller : List Node
  /-- The statements that it is made on. -/
  continuation : List Node

/-- A run of calls. -/
structure Run (α : Type) where
  /-- The calls made, in order. -/
  calls : List Call
  /-- What the run ends in, if it does end. -/
  outcome : Option (Except Fault α)

namespace Run

variable {α β : Type}

/-- Goes on with the value, if the first run ends in one. -/
protected def bind (first : Run α) (next : α → Run β) : Run β :=
  match first.outcome with
  | none => ⟨first.calls, none⟩
  | some (.error fault) => ⟨first.calls, some (.error fault)⟩
  | some (.ok value) => ⟨first.calls ++ (next value).calls, (next value).outcome⟩

instance : Monad Run where
  pure value := ⟨[], some (.ok value)⟩
  bind := Run.bind

/-- A run without calls. -/
def ofExcept (result : Except Fault α) : Run α := ⟨[], some result⟩

/-- The run of a call that is cut off. -/
def cutOff : Run α := ⟨[], none⟩

/-- Records the call that a run is made for. -/
def record (call : Call) (run : Run α) : Run α := ⟨call :: run.calls, run.outcome⟩

/-- **A run follows a computation**: its calls are of a certain sort, and it ends as the computation
does, unless it may be cut and is. -/
structure Follows (Made : Call → Prop) (cut : Prop) (run : Run α) (result : Except Fault α) :
    Prop where
  calls : ∀ call ∈ run.calls, Made call
  outcome : run.outcome = some result ∨ cut ∧ run.outcome = none

section Follows

variable {Made : Call → Prop} {cut : Prop} {run : Run α} {result : Except Fault α}

theorem follows_ofExcept (result : Except Fault α) : (ofExcept result).Follows Made cut result :=
  ⟨by simp [ofExcept], .inl rfl⟩

theorem follows_pure (value : α) : (pure value : Run α).Follows Made cut (pure value) :=
  follows_ofExcept (.ok value)

/-- Runs one after the other follow what they follow one by one. -/
theorem Follows.bind {next : α → Run β} {more : α → Except Fault β}
    (h : run.Follows Made cut result)
    (hnext : ∀ value, result = .ok value → (next value).Follows Made cut (more value)) :
    (run >>= next).Follows Made cut (result >>= more) := by
  show (Run.bind run next).Follows Made cut (result >>= more)
  obtain ⟨hcalls, houtcome | ⟨hcut, houtcome⟩⟩ := h
  · cases result with
    | error fault =>
      rw [Run.bind, houtcome]
      exact ⟨hcalls, .inl rfl⟩
    | ok value =>
      rw [Run.bind, houtcome]
      obtain ⟨hmore, hends⟩ := hnext value rfl
      exact ⟨List.forall_mem_append.2 ⟨hcalls, hmore⟩, hends⟩
  · rw [Run.bind, houtcome]
    exact ⟨hcalls, .inr ⟨hcut, rfl⟩⟩

theorem Follows.record {call : Call} (h : run.Follows Made cut result) (hcall : Made call) :
    (run.record call).Follows Made cut result :=
  ⟨List.forall_mem_cons.2 ⟨hcall, h.calls⟩, h.outcome⟩

theorem Follows.imp {cut' : Prop} (h : run.Follows Made cut result) (himp : cut → cut') :
    run.Follows Made cut' result :=
  ⟨h.calls, h.outcome.imp_right fun hcut => ⟨himp hcut.1, hcut.2⟩⟩

end Follows

end Run

namespace Scene

/-! ## Calls -/

/-- What answers the calls on statements. -/
abbrev Callee : Type := Option Linked → Nat → List Node → Run (Body × Nat)

/-- The clauses after the first, each of which makes a call that goes on with `rest`. -/
def activateClauses (scene : Scene) (call : Callee) (linked : Option Linked) (rest : List Node) :
    Nat → List Node → Run (Branch × Nat)
  | count, [] => pure (.otherwise .giveUp, count)
  | count, clause :: clauses =>
    match clause.kind with
    | .ifClause => do
      let (condition, statements) ← .ofExcept (scene.condition clause)
      let (body, count) ← call linked count (statements ++ rest)
      let (more, total) ← activateClauses scene call linked rest count clauses
      return (.elseIf condition body more, total)
    | .elseClause => do
      let (body, total) ← call linked count (clause.children ++ rest)
      match clauses with
      | [] => return (.otherwise body, total)
      | other :: _ => .ofExcept (.error (.malformed other.kind .misplacedClause))
    | kind => .ofExcept (.error (.malformed kind .misplacedClause))

/-- **One call on statements**: it builds nodes until a switch or a chain makes calls. -/
def activate (scene : Scene) (call : Callee) :
    Option Linked → Nat → List Node → Run (Body × Nat)
  | linked, count, [] => pure (scene.splice linked, count)
  | linked, count, statement :: rest =>
    match statement.kind with
    | .construct => do
      let arguments ← .ofExcept (scene.arguments statement.children)
      let (body, total) ← activate scene call (some (extend linked (count + 1))) (count + 1) rest
      return (build linked (count + 1) (.make statement.text arguments) body, total)
    | .reuse =>
      match scene.layout.named? statement.text with
      | none => .ofExcept (.error (.undefined statement.text))
      | some element => do
        let (body, total) ← activate scene call (some (extend linked (count + 1))) (count + 1) rest
        return (build linked (count + 1) (.copy element.cursor) body, total)
    | .switch => do
      let clause ← .ofExcept (scene.chosenCase statement)
      call linked count (clause.children ++ rest)
    | .ifChain =>
      match statement.children with
      | clause :: clauses =>
        if clause.kind ≠ .ifClause then .ofExcept (.error (.malformed .ifChain .missingIf))
        else do
          let (condition, statements) ← .ofExcept (scene.condition clause)
          let (body, count) ← call linked count (statements ++ rest)
          let (more, total) ← activateClauses scene call linked rest count clauses
          return (.branch condition body more, total)
      | [] => .ofExcept (.error (.malformed .ifChain .missingIf))
    | kind => .ofExcept (.error (.malformed kind .notAStatement))

/-- **The recursion of calls**, down to a depth. -/
def unroll (scene : Scene) : Nat → Callee
  | 0, _, _, _ => .cutOff
  | depth + 1, linked, count, statements =>
    scene.activate
      (fun linked count continuation =>
        (unroll scene depth linked count continuation).record ⟨statements, continuation⟩)
      linked count statements

/-! ## What calls are made on -/

/-- A kind of statements that only build a node. -/
def BuildsNode (kind : Kind) : Prop := kind = .construct ∨ kind = .reuse

/-- **What a call on statements goes on with**: the statements of a case or a clause, and those
behind its switch or chain. -/
inductive GoesOn (scene : Scene) : List Node → List Node → Prop where
  | switch {built rest : List Node} {statement clause : Node}
    (hbuilt : ∀ node ∈ built, BuildsNode node.kind) (hkind : statement.kind = .switch)
    (hclause : scene.chosenCase statement = .ok clause) :
    GoesOn scene (built ++ statement :: rest) (clause.children ++ rest)
  | ifClause {built rest statements : List Node} {statement clause : Node} {condition : Expr}
    (hbuilt : ∀ node ∈ built, BuildsNode node.kind) (hkind : statement.kind = .ifChain)
    (hmem : clause ∈ statement.children) (hclause : clause.kind = .ifClause)
    (hcondition : scene.condition clause = .ok (condition, statements)) :
    GoesOn scene (built ++ statement :: rest) (statements ++ rest)
  | elseClause {built rest : List Node} {statement clause : Node}
    (hbuilt : ∀ node ∈ built, BuildsNode node.kind) (hkind : statement.kind = .ifChain)
    (hmem : clause ∈ statement.children) (hclause : clause.kind = .elseClause) :
    GoesOn scene (built ++ statement :: rest) (clause.children ++ rest)

variable {scene : Scene}

/-- **A call goes on with fewer nodes.** -/
theorem GoesOn.sizeAll_lt {caller continuation : List Node}
    (h : scene.GoesOn caller continuation) : Node.sizeAll continuation < Node.sizeAll caller := by
  rcases h with ⟨-, -, hclause⟩ | @⟨_, _, _, statement, _, _, -, -, hmem, -, hcondition⟩ |
    @⟨_, _, statement, clause, -, -, hmem, -⟩
  · have hcase := chosenCase_size hclause
    simp only [Node.sizeAll_append, Node.sizeAll_cons]
    omega
  · have hbody := condition_size hcondition
    have hle := Node.size_le_sizeAll hmem
    have hsize := statement.size_eq
    simp only [Node.sizeAll_append, Node.sizeAll_cons]
    omega
  · have hbody := clause.size_eq
    have hle := Node.size_le_sizeAll hmem
    have hsize := statement.size_eq
    simp only [Node.sizeAll_append, Node.sizeAll_cons]
    omega

/-! ## One call -/

/-- The calls that a call on statements can make follow their compilations. -/
def Answers (scene : Scene) (Made : Call → Prop) (cut : Prop) (call : Callee)
    (caller : List Node) : Prop :=
  ∀ linked count continuation, scene.GoesOn caller continuation →
    (call linked count continuation).Follows Made cut (scene.compile linked count continuation)

section Activation

variable {Made : Call → Prop} {cut : Prop} {call : Callee} {built rest : List Node}
  {statement : Node} {linked : Option Linked}

section Chain

variable (hcall : scene.Answers Made cut call (built ++ statement :: rest))
  (hbuilt : ∀ node ∈ built, BuildsNode node.kind) (hkind : statement.kind = .ifChain)

include hcall hbuilt hkind

/-- A clause with a condition makes its call and leaves the others to come. -/
theorem follows_clause {α : Type} {make : Expr → Body → Branch → α} {count : Nat} {clause : Node}
    {clauses : List Node} (hmem : clause ∈ statement.children) (hclause : clause.kind = .ifClause)
    (hmore : ∀ count, (scene.activateClauses call linked rest count clauses).Follows Made cut
      (scene.compileClauses linked count clauses rest)) :
    Run.Follows Made cut
      (do
        let (condition, statements) ← .ofExcept (scene.condition clause)
        let (body, count) ← call linked count (statements ++ rest)
        let (more, total) ← scene.activateClauses call linked rest count clauses
        return (make condition body more, total))
      (do
        let (condition, statements) ← scene.condition clause
        let (body, count) ← scene.compile linked count (statements ++ rest)
        let (more, total) ← scene.compileClauses linked count clauses rest
        return (make condition body more, total)) := by
  refine (Run.follows_ofExcept _).bind fun found hcondition => ?_
  refine (hcall _ _ _ (.ifClause hbuilt hkind hmem hclause hcondition)).bind fun code _ => ?_
  exact (hmore code.2).bind fun _ _ => Run.follows_pure _

/-- The clauses of a chain are activated as they are compiled. -/
theorem follows_activateClauses {clauses : List Node}
    (hclauses : ∀ clause ∈ clauses, clause ∈ statement.children) (count : Nat) :
    (scene.activateClauses call linked rest count clauses).Follows Made cut
      (scene.compileClauses linked count clauses rest) := by
  induction clauses generalizing count with
  | nil =>
    rw [activateClauses, compileClauses]
    exact Run.follows_pure _
  | cons clause clauses ih =>
    obtain ⟨hmem, hclauses⟩ := List.forall_mem_cons.1 hclauses
    by_cases hif : clause.kind = .ifClause
    · rw [compileClauses_elseIf hif]
      simp only [activateClauses, hif]
      exact follows_clause hcall hbuilt hkind hmem hif (ih hclauses)
    · by_cases helse : clause.kind = .elseClause
      · rw [compileClauses_otherwise helse]
        simp only [activateClauses, helse]
        refine (hcall _ _ _ (.elseClause hbuilt hkind hmem helse)).bind fun code _ => ?_
        cases clauses with
        | nil => exact Run.follows_pure _
        | cons other _ => exact Run.follows_ofExcept _
      · rw [compileClauses_refused hif helse, activateClauses]
        split
        case h_1 h => exact absurd h hif
        case h_2 h => exact absurd h helse
        case h_3 => exact Run.follows_ofExcept _

/-- A call that has come to a chain. -/
theorem follows_chain (count : Nat) :
    (scene.activate call linked count (statement :: rest)).Follows Made cut
      (scene.compile linked count (statement :: rest)) := by
  cases hchildren : statement.children with
  | nil =>
    rw [compile_chain_nil hkind hchildren]
    simp only [activate, hkind, hchildren]
    exact Run.follows_ofExcept _
  | cons clause clauses =>
    have hmem : ∀ other ∈ clause :: clauses, other ∈ statement.children :=
      fun other hother => hchildren ▸ hother
    obtain ⟨hfirst, hothers⟩ := List.forall_mem_cons.1 hmem
    by_cases hclause : clause.kind = .ifClause
    · rw [compile_chain hkind hchildren hclause]
      simp only [activate, hkind, hchildren, hclause, ne_eq, not_true_eq_false, if_false]
      exact follows_clause hcall hbuilt hkind hfirst hclause
        (follows_activateClauses hcall hbuilt hkind hothers)
    · rw [compile_chain_refused hkind hchildren hclause]
      simp only [activate, hkind, hchildren, ne_eq, hclause, not_false_eq_true, if_true]
      exact Run.follows_ofExcept _

end Chain

/-- What is no statement makes no call. -/
theorem activate_refused {count : Nat} (hkind : ¬ IsStatementKind statement.kind) :
    scene.activate call linked count (statement :: rest)
      = .ofExcept (.error (.malformed statement.kind .notAStatement)) := by
  simp only [IsStatementKind, not_or] at hkind
  rw [activate]
  split
  case h_1 h => exact absurd h hkind.1
  case h_2 h => exact absurd h hkind.2.1
  case h_3 h => exact absurd h hkind.2.2.1
  case h_4 h => exact absurd h hkind.2.2.2
  case h_5 => rfl

/-- **One call follows the compilation of its statements, if the calls it makes do.**  The induction
is on the statements still to come, before which only nodes were built. -/
theorem follows_activate {caller statements : List Node}
    (hcall : scene.Answers Made cut call caller) (hcaller : caller = built ++ statements)
    (hbuilt : ∀ node ∈ built, BuildsNode node.kind) (linked : Option Linked) (count : Nat) :
    (scene.activate call linked count statements).Follows Made cut
      (scene.compile linked count statements) := by
  induction statements generalizing built linked count with
  | nil =>
    rw [activate, compile]
    exact Run.follows_pure _
  | cons statement rest ih =>
    have hnext (hnode : BuildsNode statement.kind) (linked : Option Linked) (count : Nat) :
        (scene.activate call linked count rest).Follows Made cut
          (scene.compile linked count rest) :=
      ih (hcaller.trans (List.append_cons built statement rest))
        (List.forall_mem_append.2 ⟨hbuilt, List.forall_mem_singleton.2 hnode⟩) linked count
    subst hcaller
    by_cases hstatement : IsStatementKind statement.kind
    · rcases hstatement with hkind | hkind | hkind | hkind
      · rw [compile_construct hkind]
        simp only [activate, hkind]
        refine (Run.follows_ofExcept _).bind fun arguments _ => ?_
        exact (hnext (.inl hkind) _ _).bind fun _ _ => Run.follows_pure _
      · rw [compile_reuse hkind]
        simp only [activate, hkind]
        cases scene.layout.named? statement.text with
        | none => exact Run.follows_ofExcept _
        | some element => exact (hnext (.inr hkind) _ _).bind fun _ _ => Run.follows_pure _
      · rw [compile_switch hkind]
        simp only [activate, hkind]
        refine (Run.follows_ofExcept _).bind fun clause hclause => ?_
        exact hcall _ _ _ (.switch hbuilt hkind hclause)
      · exact follows_chain hcall hbuilt hkind count
    · rw [compile_refused hstatement, activate_refused hstatement]
      exact Run.follows_ofExcept _

end Activation

/-! ## All calls -/

/-- **A run follows the compilation and is cut at most where it has more nodes than depth.**  The
calls of a call have one level less to go, and fewer nodes. -/
theorem follows_unroll (scene : Scene) (depth : Nat) :
    ∀ linked count statements, (scene.unroll depth linked count statements).Follows
      (fun call => scene.GoesOn call.caller call.continuation) (depth ≤ Node.sizeAll statements)
      (scene.compile linked count statements) := by
  induction depth with
  | zero =>
    intro linked count statements
    exact ⟨by simp [unroll, Run.cutOff], .inr ⟨Nat.zero_le _, rfl⟩⟩
  | succ depth ih =>
    intro linked count statements
    refine follows_activate (fun linked count continuation hgoes => ?_) (List.nil_append _).symm
      (by simp) linked count
    have hlt := hgoes.sizeAll_lt
    exact ((ih linked count continuation).imp fun hcut => by omega).record hgoes

/-- **The compilation of statements ends, on all trees.**  Every call is made on the statements of
the chosen case or of a clause and those behind, which have fewer nodes than the statements of the
call that makes it.  So a run with more depth than nodes ends, and it ends as `compile` does. -/
theorem compile_ends (scene : Scene) (linked : Option Linked) (count : Nat)
    (statements : List Node) (depth : Nat) :
    (∀ call ∈ (scene.unroll depth linked count statements).calls,
      scene.GoesOn call.caller call.continuation ∧
        Node.sizeAll call.continuation < Node.sizeAll call.caller) ∧
    (Node.sizeAll statements < depth →
      (scene.unroll depth linked count statements).outcome
        = some (scene.compile linked count statements)) := by
  obtain ⟨hcalls, houtcome⟩ := scene.follows_unroll depth linked count statements
  refine ⟨fun call hcall => ⟨hcalls call hcall, (hcalls call hcall).sizeAll_lt⟩, fun hdepth => ?_⟩
  exact houtcome.resolve_right fun hcut => Nat.not_le.2 hdepth hcut.1

namespace Longer

/-- An element `x` that asks for `iadd`. -/
def given : Scene where
  layout := ⟨[⟨"x", true, "instr_x", some (.literal "iadd")⟩], [], by simp⟩
  bindings := []
  choice := ⟨[]⟩

/-- The statements of a case. -/
def body : List Node := [.leaf .construct "dup", .leaf .construct "dup", .leaf .construct "swap"]

/-- A switch with one clause. -/
def switch : Node := .branch .switch [.leaf .reference "x", .mk .caseClause "iadd" body]

/-- A chain with a switch in its only clause, and a copy of `x` behind it. -/
def statements : List Node :=
  [.branch .ifChain [.branch .ifClause [.leaf .integer "1", switch]], .leaf .reuse "x"]

end Longer

/-- The call for a case of three statements is made on a longer list, and the run ends. -/
theorem compile_ends_longer :
    Node.sizeAll Longer.statements < 11 ∧
      (Longer.given.unroll 11 none 0 Longer.statements).outcome
        = some (Longer.given.compile none 0 Longer.statements) ∧
      ∃ call ∈ (Longer.given.unroll 11 none 0 Longer.statements).calls,
        call.caller.length < call.continuation.length ∧
          Node.sizeAll call.continuation < Node.sizeAll call.caller := by
  obtain ⟨hcalls, houtcome⟩ := compile_ends Longer.given none 0 Longer.statements 11
  have hsize : Node.sizeAll Longer.statements < 11 := by decide
  have hmem : ⟨[Longer.switch, .leaf .reuse "x"], Longer.body ++ [.leaf .reuse "x"]⟩ ∈
      (Longer.given.unroll 11 none 0 Longer.statements).calls := List.mem_of_getElem? (i := 1) rfl
  exact ⟨hsize, houtcome hsize, _, hmem, by decide, (hcalls _ hmem).2⟩

end Scene

end Peephole

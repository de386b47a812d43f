import Peephole.Matcher
import Peephole.Registry

/-!
# Expansion — a rule, once per combination of instructions

The choices of a rule are the combinations of one instruction per binding, the first binding varying
slowest.  They are walked one by one and the walk stops at the first that has no matcher, so the
matchers before it are known however many combinations there are (`Walk.combinations`).  They are
counted first, in a machine word, and there is no walk if the count is zero
(`Expansion.combinationCount`): so it is if a set is empty, and also if there are `2 ^ 64`
combinations or a multiple of that.

The rules of a file are expanded into one `Emission`: each adds its matchers to what those before it
have emitted (`expandRule`).
-/

namespace Peephole

/-- What a walk has done, and the fault that stopped it. -/
structure Walk (α : Type) where
  done : List α
  fault : Option Fault

namespace Walk

variable {α β : Type}

/-- Walks over items in order, up to the first fault. -/
def each (visit : α → Walk β) : List α → Walk β
  | [] => ⟨[], none⟩
  | item :: items =>
    let first := visit item
    match first.fault with
    | some fault => ⟨first.done, some fault⟩
    | none =>
      let more := each visit items
      ⟨first.done ++ more.done, more.fault⟩

/-- Walks over the combinations of one member per list that begin with `chosen`. -/
def combinations (visit : List String → Except Fault α) :
    List (List String) → List String → Walk α
  | [], chosen =>
    match visit chosen with
    | .ok value => ⟨[value], none⟩
    | .error fault => ⟨[], some fault⟩
  | candidates :: more, chosen =>
    each (fun candidate => combinations visit more (chosen ++ [candidate])) candidates

end Walk

/-- The matchers of a rule. -/
structure Expansion where
  /-- What was reported before the first matcher. -/
  notices : List Notice
  matchers : List Matcher
  /-- Why there are no more. -/
  fault : Option Fault

namespace Expansion

/-- All that was reported. -/
def allNotices (expansion : Expansion) : List Notice :=
  expansion.notices ++ expansion.matchers.map (.matcherGenerated ·.name)

/-- The number of matchers, as a machine word holds it, unless a fault stopped the expansion. -/
def count (expansion : Expansion) : Logged Fault Nat where
  notices := expansion.allNotices
  result :=
    match expansion.fault with
    | some fault => .error fault
    | none => .ok (UInt64.ofNat expansion.matchers.length).toNat

/-- A rule made ready for its choices. -/
structure Plan where
  bindings : List Binding
  /-- The instructions each binding ranges over. -/
  candidates : List (List String)
  side : MatchSide

/-- The instructions that each binding ranges over. -/
def candidates (table : AliasTable) : List Binding → Except Fault (List (List String))
  | [] => .ok []
  | binding :: more =>
    match table.get? binding.aliasName with
    | none => .error (.undefined binding.aliasName)
    | some instructions => do return instructions :: (← candidates table more)

/-- The number of combinations of one member per list, in a machine word: at `2 ^ 64` it starts over
from zero. -/
def combinationCount (candidates : List (List String)) : UInt64 :=
  candidates.foldl (fun count instructions => count * .ofNat instructions.length) 1

/-- Resolves the bindings of a rule and lays out its match side. -/
def plan (rule : Node) (table : AliasTable) : Logged Fault Plan := do
  let (bindings, table) ← Binding.resolve rule table
  let candidates ← Logged.ofExcept (candidates table bindings)
  let side ← Logged.ofExcept (MatchSide.ofRule rule bindings)
  return ⟨bindings, candidates, side⟩

/-- The matcher of a rule for chosen instructions; a fault names the rule and the choice. -/
def Plan.matcher (plan : Plan) (rule : Node) (chosen : List String) : Except Fault Matcher :=
  let choice := Choice.ofBindings plan.bindings chosen
  (Matcher.ofChoice rule plan.bindings plan.side choice).mapError (.inRule rule.text choice.text)

/-- Expands a rule under the aliases of its file.  A rule with no combination to count is reported
as ranging over an empty set. -/
def ofRule (rule : Node) (table : AliasTable) : Expansion :=
  let planned := plan rule table
  match planned.result with
  | .error fault => ⟨planned.notices, [], some (.inRule rule.text "" fault)⟩
  | .ok plan =>
    if combinationCount plan.candidates = 0 then
      ⟨planned.notices ++ [.emptyExpansion rule.text], [], none⟩
    else
      let walk := Walk.combinations (plan.matcher rule) plan.candidates []
      ⟨planned.notices, walk.done, walk.fault⟩

end Expansion

/-! ## Emission -/

/-- What the rules of a file have emitted: the matchers registered, and their text. -/
structure Emission where
  registry : Registry
  text : String
deriving DecidableEq, Repr

namespace Emission

/-- Nothing emitted. -/
def empty : Emission := ⟨.empty, ""⟩

/-- Emits one more matcher. -/
def add (emission : Emission) (matcher : Matcher) : Emission :=
  ⟨emission.registry.register matcher.name, emission.text ++ matcher.text⟩

/-- Emits matchers in order. -/
def addAll (emission : Emission) (matchers : List Matcher) : Emission := matchers.foldl add emission

end Emission

/-- Expands a rule into what was emitted before it: the number of its matchers, or why there are no
more, and what is emitted then.  The matchers before a fault stay. -/
def expandRule (rule : Node) (table : AliasTable) (emission : Emission) :
    Logged Fault Nat × Emission :=
  let expansion := Expansion.ofRule rule table
  (expansion.count, emission.addAll expansion.matchers)

end Peephole

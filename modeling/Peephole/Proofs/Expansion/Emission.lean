import Peephole.Proofs.Binding.Resolution
import Peephole.Proofs.Expansion.Product

/-!
# Proofs/Expansion/Emission — a rule emits one matcher per combination, in order

Expanding a rule is a walk along the product of its candidates.  Either there is no plan for it and
nothing is emitted, or the matchers of all combinations are emitted, or those of the combinations
before the first that has none.  An empty set of candidates leaves no combination, and a multiple of
`2 ^ 64` combinations is taken for none.
-/

namespace Peephole

/-! ## Emission -/

namespace Emission

/-- What matchers add to what was emitted before. -/
theorem addAll_eq (emission : Emission) (matchers : List Matcher) :
    emission.addAll matchers
      = ⟨⟨emission.registry.names ++ matchers.map Matcher.name⟩,
        emission.text ++ String.join (matchers.map Matcher.text)⟩ := by
  induction matchers generalizing emission with
  | nil => simp [addAll]
  | cons matcher matchers ih =>
    rw [addAll, List.foldl_cons, ← addAll, ih]
    simp [add, Registry.register, String.append_assoc]

end Emission

/-! ## Names -/

namespace Choice

theorem instructions_ofBindings {bindings : List Binding} {chosen : List String}
    (h : chosen.length = bindings.length) : (ofBindings bindings chosen).instructions = chosen := by
  rw [instructions, ofBindings]
  exact List.map_snd_zip (by simp [h])

end Choice

/-- **The name of a matcher is the name of its rule and the chosen instructions.** -/
theorem Matcher.instantiate_nameTemplate {rule : Node} {bindings : List Binding}
    {chosen : List String} (h : chosen.length = bindings.length) :
    (nameTemplate rule bindings).instantiate chosen
      = rule.text ++ String.join (chosen.map ("_" ++ ·)) := by
  have hslots : (List.range bindings.length).map (fun slot => chosen[slot]?.getD "") = chosen := by
    refine List.ext_getElem (by simp [h]) fun slot hslot hslot' => ?_
    simp [hslot']
  rw [nameTemplate, Template.instantiate_append, Template.instantiate_ofText,
    Template.instantiate_concat, List.map_map]
  nth_rewrite 2 [← hslots]
  rw [List.map_map]
  simp [Function.comp_def]

/-- The parts of a matcher. -/
theorem Matcher.exists_of_ofChoice {rule : Node} {bindings : List Binding} {side : MatchSide}
    {choice : Choice} {matcher : Matcher} (h : ofChoice rule bindings side choice = .ok matcher) :
    ∃ replacement body, rule.child? 1 = some replacement ∧
      Scene.replacement ⟨side.layout, bindings, choice⟩ replacement = .ok body ∧
      isCIdentifier matcher.name = true ∧
      matcher = ⟨(nameTemplate rule bindings).instantiate choice.instructions, side,
        choice.instructions, body⟩ := by
  unfold ofChoice at h
  dsimp only at h
  split at h
  case isTrue => cases h
  case isFalse hname =>
    split at h
    case h_1 => cases h
    case h_2 replacement hreplacement =>
      obtain ⟨body, hbody, heq⟩ := bind_eq_ok_iff.1 h
      obtain rfl := Except.ok.inj heq
      exact ⟨replacement, body, hreplacement, hbody, by simpa using hname, rfl⟩

/-- What a matcher keeps of the choice it was made for. -/
theorem Matcher.eq_of_ofChoice {rule : Node} {bindings : List Binding} {side : MatchSide}
    {choice : Choice} {matcher : Matcher} (h : ofChoice rule bindings side choice = .ok matcher) :
    matcher.name = (nameTemplate rule bindings).instantiate choice.instructions ∧
      matcher.side = side ∧ matcher.instructions = choice.instructions := by
  obtain ⟨_, _, -, -, -, rfl⟩ := exists_of_ofChoice h
  exact ⟨rfl, rfl, rfl⟩

/-! ## Plans -/

namespace Expansion

/-- The candidates are the sets that the bindings ask the table for, in their order. -/
theorem candidates_eq_ok_iff {aliases : AliasTable} {bindings : List Binding}
    {sets : List (List String)} :
    candidates aliases bindings = .ok sets ↔
      List.Forall₂ (fun binding set => aliases.get? binding.aliasName = some set) bindings
        sets := by
  induction bindings generalizing sets with
  | nil =>
    rw [candidates, Except.ok.injEq, List.forall₂_nil_left_iff]
    exact eq_comm
  | cons binding bindings ih =>
    rw [candidates]
    cases hget : aliases.get? binding.aliasName with
    | none =>
      refine iff_of_false (by simp) ?_
      rintro (_ | ⟨hset, -⟩)
      simp [hget] at hset
    | some set =>
      dsimp only
      rw [bind_eq_ok_iff]
      constructor
      · rintro ⟨more, hmore, heq⟩
        obtain rfl := Except.ok.inj heq
        exact .cons hget (ih.1 hmore)
      · rintro (_ | ⟨hset, hmore⟩)
        obtain rfl := Option.some.inj (hget.symm.trans hset)
        exact ⟨_, ih.2 hmore, rfl⟩

/-- After resolution, every binding has candidates. -/
theorem exists_candidates {rule : Node} {table aliases : AliasTable} {bindings : List Binding}
    (h : (Binding.resolve rule table).result = .ok (bindings, aliases)) :
    ∃ sets, candidates aliases bindings = .ok sets := by
  obtain ⟨pattern, hpattern⟩ := Binding.matchSide_of_resolve h
  have hall := (Binding.resolves_of_resolve hpattern h).contains_aliasName
  clear h
  induction bindings with
  | nil => exact ⟨[], rfl⟩
  | cons binding bindings ih =>
    rw [List.forall_mem_cons] at hall
    obtain ⟨set, hset⟩ := Option.isSome_iff_exists.1 hall.1
    obtain ⟨sets, hsets⟩ := ih hall.2
    exact ⟨set :: sets, candidates_eq_ok_iff.2 (.cons hset (candidates_eq_ok_iff.1 hsets))⟩

/-- The candidates of a binding are what an alias stands for. -/
theorem exists_get?_of_candidates {aliases : AliasTable} {bindings : List Binding}
    {sets : List (List String)} (h : candidates aliases bindings = .ok sets) :
    ∀ set ∈ sets, ∃ name, aliases.get? name = some set := by
  have hall := candidates_eq_ok_iff.1 h
  clear h
  induction hall with
  | nil => simp
  | cons hset _ ih => exact List.forall_mem_cons.2 ⟨⟨_, hset⟩, ih⟩

/-- Candidates are listed once. -/
theorem nodup_of_candidates {aliases : AliasTable} {bindings : List Binding}
    {sets : List (List String)} (h : candidates aliases bindings = .ok sets) :
    ∀ set ∈ sets, set.Nodup := by
  intro set hset
  obtain ⟨name, hget⟩ := exists_get?_of_candidates h set hset
  obtain ⟨entry, hentry, rfl⟩ := Option.map_eq_some_iff.1 hget
  exact aliases.instructions_nodup entry (List.mem_of_find?_eq_some hentry)

/-- The plan of a rule, part by part. -/
theorem result_plan (rule : Node) (table : AliasTable) :
    (plan rule table).result = (do
      let (bindings, aliases) ← (Binding.resolve rule table).result
      let sets ← candidates aliases bindings
      let side ← MatchSide.ofRule rule bindings
      return ⟨bindings, sets, side⟩) := by
  rw [plan, Logged.result_bind]
  congr 1
  funext ⟨bindings, aliases⟩
  rw [Logged.result_bind, Logged.result_ofExcept]
  congr 1
  funext sets
  rw [Logged.result_bind]
  rfl

/-- What a plan is made of. -/
theorem exists_of_plan {rule : Node} {table : AliasTable} {plan : Plan}
    (h : (Expansion.plan rule table).result = .ok plan) :
    ∃ aliases, (Binding.resolve rule table).result = .ok (plan.bindings, aliases) ∧
      candidates aliases plan.bindings = .ok plan.candidates ∧
      MatchSide.ofRule rule plan.bindings = .ok plan.side := by
  rw [result_plan] at h
  obtain ⟨⟨bindings, aliases⟩, hresolve, h⟩ := bind_eq_ok_iff.1 h
  obtain ⟨sets, hsets, h⟩ := bind_eq_ok_iff.1 h
  obtain ⟨side, hside, h⟩ := bind_eq_ok_iff.1 h
  obtain rfl := Except.ok.inj h
  exact ⟨aliases, hresolve, hsets, hside⟩

/-- **The matchers of a rule with a plan**: a walk along the product of its candidates, unless they
are too many to be counted. -/
theorem ofRule_eq_each {rule : Node} {table : AliasTable} {plan : Plan}
    (h : (Expansion.plan rule table).result = .ok plan) :
    (⟨(ofRule rule table).matchers, (ofRule rule table).fault⟩ : Walk Matcher)
      = Walk.each (fun chosen => Walk.single (plan.matcher rule chosen))
        (visited plan.candidates) := by
  rw [ofRule, visited_eq_ite_count]
  dsimp only
  rw [h]
  dsimp only
  split
  case isTrue => rfl
  case isFalse => rw [Walk.combinations_eq_each]; rfl

/-- A plan makes the matcher of the choice for its bindings. -/
theorem matcher_eq_ok_iff {plan : Plan} {rule : Node} {chosen : List String} {matcher : Matcher} :
    plan.matcher rule chosen = .ok matcher ↔
      Matcher.ofChoice rule plan.bindings plan.side (.ofBindings plan.bindings chosen)
        = .ok matcher := by
  rw [Plan.matcher]
  cases Matcher.ofChoice rule plan.bindings plan.side (.ofBindings plan.bindings chosen) <;>
    simp [Except.mapError]

/-- A fault of a matcher names the rule and the choice. -/
theorem matcher_eq_error_iff {plan : Plan} {rule : Node} {chosen : List String} {fault : Fault} :
    plan.matcher rule chosen = .error fault ↔
      ∃ cause, Matcher.ofChoice rule plan.bindings plan.side (.ofBindings plan.bindings chosen)
        = .error cause ∧
        fault = .inRule rule.text (Choice.ofBindings plan.bindings chosen).text cause := by
  rw [Plan.matcher]
  cases Matcher.ofChoice rule plan.bindings plan.side (.ofBindings plan.bindings chosen) <;>
    simp [Except.mapError, eq_comm]

/-- **An expansion without a fault has a matcher for each combination that is visited.** -/
theorem forall₂_of_fault_eq_none {rule : Node} {table : AliasTable}
    (h : (ofRule rule table).fault = none) :
    ∃ plan, (Expansion.plan rule table).result = .ok plan ∧
      List.Forall₂ (fun chosen matcher => plan.matcher rule chosen = .ok matcher)
        (visited plan.candidates) (ofRule rule table).matchers := by
  cases hplan : (Expansion.plan rule table).result with
  | error fault =>
    rw [ofRule, hplan] at h
    cases h
  | ok plan =>
    refine ⟨plan, rfl, ?_⟩
    have hwalk := ofRule_eq_each hplan
    obtain ⟨matchers, hmatchers, heach⟩ | ⟨_, _, _, _, fault, -, -, -, heach⟩ :=
      Walk.each_single (plan.matcher rule) (visited plan.candidates)
    · rw [heach, Walk.mk.injEq] at hwalk
      rwa [hwalk.1]
    · rw [heach, Walk.mk.injEq, h] at hwalk
      cases hwalk.2

/-- **Every matcher of a rule is that of a combination.** -/
theorem exists_chosen_of_mem {rule : Node} {table : AliasTable} {matcher : Matcher}
    (h : matcher ∈ (ofRule rule table).matchers) :
    ∃ plan chosen, (Expansion.plan rule table).result = .ok plan ∧
      chosen ∈ product plan.candidates ∧ plan.matcher rule chosen = .ok matcher := by
  cases hplan : (Expansion.plan rule table).result with
  | error fault =>
    rw [ofRule, hplan] at h
    cases h
  | ok plan =>
    have hdone := congrArg Walk.done (ofRule_eq_each hplan)
    dsimp only at hdone
    rw [hdone] at h
    obtain ⟨chosen, hchosen, hmatcher⟩ := Walk.exists_of_mem_each_single h
    exact ⟨plan, chosen, rfl, (mem_visited.1 hchosen).2, hmatcher⟩

end Expansion

/-! ## One rule -/

/-- Nothing is emitted for a rule, because of a fault that concerns all its combinations. -/
def Refuses (rule : Node) (table : AliasTable) (emission : Emission) (fault : Fault) : Prop :=
  (expandRule rule table emission).1.result = .error (.inRule rule.text "" fault) ∧
    (expandRule rule table emission).2 = emission

/-- A rule without a plan is refused, whatever was emitted before. -/
theorem refuses_of_plan {rule : Node} {table : AliasTable} {fault : Fault}
    (h : (Expansion.plan rule table).result = .error fault) (emission : Emission) :
    Refuses rule table emission fault := by
  have hmatchers : (Expansion.ofRule rule table).matchers = [] := by
    rw [Expansion.ofRule, h]
  have hfault : (Expansion.ofRule rule table).fault = some (.inRule rule.text "" fault) := by
    rw [Expansion.ofRule, h]
  refine ⟨?_, ?_⟩
  · rw [expandRule, Expansion.count, hfault]
  · rw [expandRule, hmatchers]
    rfl

/-- The matchers of combinations, each named after its rule and its combination. -/
def MatchersOf (rule : Node) (bindings : List Binding) (side : MatchSide) :
    List (List String) → List Matcher → Prop :=
  List.Forall₂ fun chosen matcher =>
    Matcher.ofChoice rule bindings side (.ofBindings bindings chosen) = .ok matcher ∧
      matcher.name = rule.text ++ String.join (chosen.map ("_" ++ ·))

/-- What matchers add to what was emitted before. -/
def Emits (rule : Node) (table : AliasTable) (emission : Emission) (matchers : List Matcher) :
    Prop :=
  (expandRule rule table emission).2.registry.names
      = emission.registry.names ++ matchers.map Matcher.name ∧
    (expandRule rule table emission).2.text
      = emission.text ++ String.join (matchers.map Matcher.text)

theorem emits_of_matchers {rule : Node} {table : AliasTable} {matchers : List Matcher}
    (h : (Expansion.ofRule rule table).matchers = matchers) (emission : Emission) :
    Emits rule table emission matchers := by
  subst h
  refine ⟨?_, ?_⟩ <;> rw [expandRule, Emission.addAll_eq]

/-- Matchers made one by one are the matchers of their combinations. -/
theorem matchersOf_of_forall₂ {rule : Node} {plan : Expansion.Plan}
    {combinations : List (List String)} {matchers : List Matcher}
    (hlength : ∀ chosen ∈ combinations, chosen.length = plan.bindings.length)
    (h : List.Forall₂ (fun chosen matcher => plan.matcher rule chosen = .ok matcher) combinations
      matchers) : MatchersOf rule plan.bindings plan.side combinations matchers := by
  induction h with
  | nil => exact .nil
  | cons hmatcher _ ih =>
    rw [List.forall_mem_cons] at hlength
    have hchoice := Expansion.matcher_eq_ok_iff.1 hmatcher
    refine .cons ⟨hchoice, ?_⟩ (ih hlength.2)
    rw [(Matcher.eq_of_ofChoice hchoice).1, Choice.instructions_ofBindings hlength.1,
      Matcher.instantiate_nameTemplate hlength.1]

/-- **Expanding a rule with a plan**: all combinations that are visited, or those before the first
without a matcher. -/
theorem expandRule_of_plan {rule : Node} {table : AliasTable} {plan : Expansion.Plan}
    (h : (Expansion.plan rule table).result = .ok plan)
    (hlength : plan.candidates.length = plan.bindings.length) (emission : Emission) :
    (∃ matchers, MatchersOf rule plan.bindings plan.side (visited plan.candidates) matchers ∧
      (expandRule rule table emission).1.result
        = .ok ((visited plan.candidates).length % 2 ^ 64) ∧
      Emits rule table emission matchers) ∨
    ∃ before failing behind matchers cause,
      visited plan.candidates = before ++ failing :: behind ∧
      MatchersOf rule plan.bindings plan.side before matchers ∧
      Matcher.ofChoice rule plan.bindings plan.side (.ofBindings plan.bindings failing)
        = .error cause ∧
      (expandRule rule table emission).1.result
        = .error (.inRule rule.text (Choice.ofBindings plan.bindings failing).text cause) ∧
      Emits rule table emission matchers := by
  have hcombination : ∀ chosen ∈ visited plan.candidates,
      chosen.length = plan.bindings.length := fun chosen hchosen => by
    rw [(mem_product.1 (mem_visited.1 hchosen).2).length_eq, hlength]
  have hwalk := Expansion.ofRule_eq_each h
  obtain ⟨matchers, hmatchers, heach⟩ |
      ⟨before, failing, behind, matchers, fault, hvisited, hmatchers, hfailing, heach⟩ :=
    Walk.each_single (plan.matcher rule) (visited plan.candidates)
  · rw [heach, Walk.mk.injEq] at hwalk
    refine .inl ⟨matchers, matchersOf_of_forall₂ hcombination hmatchers, ?_,
      emits_of_matchers hwalk.1 emission⟩
    rw [expandRule, Expansion.count, hwalk.2, hwalk.1, hmatchers.length_eq, ← UInt64.toNat_ofNat']
  · rw [heach, Walk.mk.injEq] at hwalk
    obtain ⟨cause, hcause, rfl⟩ := Expansion.matcher_eq_error_iff.1 hfailing
    refine .inr ⟨before, failing, behind, matchers, cause, hvisited,
      matchersOf_of_forall₂ (fun chosen hchosen => hcombination chosen ?_) hmatchers, hcause, ?_,
      emits_of_matchers hwalk.1 emission⟩
    · rw [hvisited]
      exact List.mem_append_left _ hchosen
    · rw [expandRule, Expansion.count, hwalk.2]

/-- **A rule emits one matcher for each combination of its candidates, in order.**  If its bindings
or its match side cannot be made out, it emits nothing.  Else the combinations are the product of
the candidates of its bindings; if all of them have a matcher, there are as many as the product of
the sizes, and if not, those before the first without one are emitted and the fault names the rule
and the choice.  Counts start over at `2 ^ 64`: that of the matchers, and that of the combinations,
of which a positive multiple of `2 ^ 64` passes for none. -/
theorem expandRule_eq_product (rule : Node) (table : AliasTable) (emission : Emission) :
    (∀ fault, (Binding.resolve rule table).result = .error fault →
      Refuses rule table emission fault) ∧
    ∀ bindings aliases, (Binding.resolve rule table).result = .ok (bindings, aliases) →
      (∀ fault, MatchSide.ofRule rule bindings = .error fault →
        Refuses rule table emission fault) ∧
      ∀ side, MatchSide.ofRule rule bindings = .ok side →
        ∃ sets, List.Forall₂ (fun binding set => aliases.get? binding.aliasName = some set) bindings
            sets ∧
          (product sets).Nodup ∧ (product sets).length = (sets.map List.length).prod ∧
          (¬ Overflows sets →
            (∃ matchers, MatchersOf rule bindings side (product sets) matchers ∧
              (expandRule rule table emission).1.result
                = .ok ((sets.map List.length).prod % 2 ^ 64) ∧
              Emits rule table emission matchers) ∨
            ∃ before failing behind matchers cause, product sets = before ++ failing :: behind ∧
              MatchersOf rule bindings side before matchers ∧
              Matcher.ofChoice rule bindings side (.ofBindings bindings failing) = .error cause ∧
              (expandRule rule table emission).1.result
                = .error (.inRule rule.text (Choice.ofBindings bindings failing).text cause) ∧
              Emits rule table emission matchers) ∧
          (Overflows sets → (expandRule rule table emission).1.result = .ok 0 ∧
            Emits rule table emission []) := by
  refine ⟨fun fault hfault => ?_, fun bindings aliases hresolve => ⟨fun fault hfault => ?_, ?_⟩⟩
  · refine refuses_of_plan ?_ emission
    rw [Expansion.result_plan, hfault]
    rfl
  · obtain ⟨sets, hsets⟩ := Expansion.exists_candidates hresolve
    refine refuses_of_plan ?_ emission
    rw [Expansion.result_plan, hresolve]
    dsimp only [bind, Except.bind]
    rw [hsets, hfault]
  · intro side hside
    obtain ⟨sets, hsets⟩ := Expansion.exists_candidates hresolve
    have hall := Expansion.candidates_eq_ok_iff.1 hsets
    have hplan : (Expansion.plan rule table).result = .ok ⟨bindings, sets, side⟩ := by
      rw [Expansion.result_plan, hresolve]
      dsimp only [bind, Except.bind]
      rw [hsets, hside]
      rfl
    have hexpand := expandRule_of_plan hplan hall.length_eq.symm emission
    rw [visited] at hexpand
    refine ⟨sets, hall, nodup_product (Expansion.nodup_of_candidates hsets), length_product sets,
      fun hcounted => ?_, fun hoverflows => ?_⟩
    · rwa [if_neg hcounted, length_product] at hexpand
    · rw [if_pos hoverflows] at hexpand
      obtain ⟨_, ⟨⟩, hresult, hemits⟩ | ⟨before, failing, behind, _, _, hnil, -⟩ := hexpand
      · exact ⟨hresult, hemits⟩
      · exact absurd hnil.symm (List.append_ne_nil_of_right_ne_nil before (List.cons_ne_nil _ _))

namespace Stopped

/-- A rule over two instructions that knows what to do with the first only. -/
def rule : Node :=
  .mk .rule "p"
    [.branch .pattern
      [.mk .namedElement "x"
        [.branch .instructionSet [.leaf .instruction "iadd", .leaf .instruction "isub"]]],
      .branch .replacement
        [.branch .switch [.leaf .reference "x", .mk .caseClause "iadd" [.leaf .construct "nop"]]]]

/-- The one element is bound to the set written in it. -/
def bindings : List Binding := [⟨"x", "inlined_1", 0⟩]

theorem resolve_rule : (Binding.resolve rule .empty).result
    = .ok (bindings, AliasTable.empty.insert "inlined_1" ["iadd", "isub"]) :=
  rfl

/-- The rule has a case for the first instruction and none for the second. -/
theorem ofChoice_rule : ∃ side, MatchSide.ofRule rule bindings = .ok side ∧
    (Matcher.ofChoice rule bindings side (.ofBindings bindings ["iadd"])).toOption.isSome = true ∧
    (Matcher.ofChoice rule bindings side (.ofBindings bindings ["isub"])).toOption.isSome = false :=
  ⟨_, rfl, by decide +kernel, by decide +kernel⟩

end Stopped

/-- The matcher of the first combination is out by the time the second one fails. -/
theorem expandRule_eq_product_stopped :
    (expandRule Stopped.rule .empty .empty).2.registry.names = ["p_iadd"] ∧
      ∃ cause, (expandRule Stopped.rule .empty .empty).1.result
        = .error (.inRule "p" "x=isub" cause) := by
  obtain ⟨side, hside, hiadd, hisub⟩ := Stopped.ofChoice_rule
  obtain ⟨sets, hsets, -, -, hexpand, -⟩ :=
    ((expandRule_eq_product Stopped.rule .empty .empty).2 _ _ Stopped.resolve_rule).2 side hside
  obtain rfl : sets = [["iadd", "isub"]] := by
    obtain _ | ⟨hset, ⟨⟩⟩ := hsets
    exact congrArg ([·]) (Option.some.inj hset).symm
  have hlist : product [["iadd", "isub"]] = [["iadd"], ["isub"]] := rfl
  rw [hlist] at hexpand
  obtain ⟨matchers, hall, -⟩ | ⟨before, failing, behind, matchers, cause, hproduct, hbefore,
      hfailing, hresult, hemits⟩ := hexpand (by decide)
  · obtain _ | ⟨-, _ | ⟨⟨hmatcher, -⟩, -⟩⟩ := hall
    rw [hmatcher] at hisub
    cases hisub
  · match before, hproduct, hbefore with
    | [], hproduct, _ =>
      obtain ⟨rfl, -⟩ := List.cons.inj hproduct
      rw [hfailing] at hiadd
      cases hiadd
    | [_], hproduct, .cons ⟨_, hname⟩ .nil =>
      obtain ⟨hfirst, hproduct⟩ := List.cons.inj hproduct
      obtain ⟨rfl, -⟩ := List.cons.inj hproduct
      rw [← hfirst] at hname
      exact ⟨by rw [hemits.1, List.map_singleton, hname]; rfl, cause, hresult⟩
    | _ :: _ :: _, hproduct, _ => simp at hproduct

end Peephole

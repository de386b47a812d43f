import Peephole.Compile
import Peephole.Proofs.Expansion.Partition

/-!
# Proofs/Expansion/FunctionNames — which functions of a file can share a name

A matcher is named after its rule and the instructions chosen for it, with a `_` ahead of each.  As
names may hold `_` themselves, a name does not tell where its rule ends and its instructions begin,
and nothing keeps two functions of a file from sharing one.

Two words that start the same text part in a definite way: they are one word, or one of them goes on
where the other is followed by an instruction, and then that instruction goes on along with it
(`eq_or_confuses`).  So names can be told apart word by word from the left, in a rule
(`ChoicesApart`) and between two rules (`SetsApart`).
-/

namespace Peephole

/-! ## Words that go on from each other -/

/-- A name goes on from another one: with a `_` and more. -/
def Extends (name longer : String) : Prop :=
  name.toList ++ ['_'] <+: longer.toList

instance (name longer : String) : Decidable (Extends name longer) :=
  inferInstanceAs (Decidable (_ <+: _))

theorem extends_of_eq {name longer : String} {more : List Char}
    (h : longer.toList = name.toList ++ '_' :: more) : Extends name longer :=
  ⟨more, by rw [h, List.append_assoc, List.singleton_append]⟩

/-- Two names are the same, or one goes on from the other. -/
def Overlaps (first second : String) : Prop :=
  first = second ∨ Extends first second ∨ Extends second first

instance (first second : String) : Decidable (Overlaps first second) :=
  inferInstanceAs (Decidable (_ ∨ _))

/-- **A name with an instruction behind it can be taken for a longer name.**  The longer one goes
on from it the way that one of the instructions does. -/
def Confuses (sets : List (List String)) (name longer : String) : Prop :=
  Extends name longer ∧
    ∃ instruction ∈ sets.headD [], Overlaps (name ++ "_" ++ instruction) longer

instance (sets : List (List String)) (name longer : String) :
    Decidable (Confuses sets name longer) :=
  inferInstanceAs (Decidable (_ ∧ ∃ instruction ∈ sets.headD [], _))

/-- The instructions of a combination, a `_` ahead of each. -/
def spellChoice (chosen : List String) : List Char :=
  chosen.flatMap fun instruction => '_' :: instruction.toList

theorem spellChoice_cons (instruction : String) (chosen : List String) :
    spellChoice (instruction :: chosen) = '_' :: (instruction.toList ++ spellChoice chosen) :=
  rfl

section Words

variable {first second : String} {chosen chosen' : List String} {sets sets' : List (List String)}

/-- Names that start the same text overlap. -/
theorem overlaps_of_spell
    (h : first.toList ++ spellChoice chosen = second.toList ++ spellChoice chosen') :
    Overlaps first second := by
  match chosen, chosen' with
  | [], [] => exact .inl (String.toList_inj.1 (List.append_cancel_right h))
  | [], _ :: _ => exact .inr (.inr (extends_of_eq ((List.append_nil _).symm.trans h)))
  | _ :: _, [] => exact .inr (.inl (extends_of_eq ((List.append_nil _).symm.trans h.symm)))
  | _ :: _, _ :: _ =>
    obtain ⟨hname, -⟩ | ⟨mid, hsecond, -⟩ | ⟨mid, hfirst, -⟩ := append_cons_cases h
    · exact .inl (String.toList_inj.1 hname)
    · exact .inr (.inl (extends_of_eq hsecond))
    · exact .inr (.inr (extends_of_eq hfirst))

/-- One name extends the other, so equal spellings confuse the two. -/
theorem confuses_of_extends (hextends : Extends first second) (hchosen : chosen ∈ product sets)
    (h : first.toList ++ spellChoice chosen = second.toList ++ spellChoice chosen') :
    Confuses sets first second := by
  obtain _ | ⟨hmem, -⟩ := mem_product.1 hchosen
  case nil =>
    have hlonger := hextends.length_le
    have hlength := congrArg List.length h
    simp only [List.length_append, List.length_singleton, spellChoice, List.flatMap_nil,
      List.length_nil] at hlonger hlength
    omega
  case cons instruction set chosen sets =>
    have hspell : (first ++ "_" ++ instruction).toList ++ spellChoice chosen
        = second.toList ++ spellChoice chosen' := by
      rw [← h, spellChoice_cons, String.toList_append, String.toList_append, List.append_assoc,
        List.append_assoc]
      rfl
    exact ⟨hextends, instruction, hmem, overlaps_of_spell hspell⟩

/-- **Words that start the same text are the same, or can be taken for each other.** -/
theorem eq_or_confuses (hchosen : chosen ∈ product sets) (hchosen' : chosen' ∈ product sets')
    (h : first.toList ++ spellChoice chosen = second.toList ++ spellChoice chosen') :
    (first = second ∧ spellChoice chosen = spellChoice chosen') ∨
      Confuses sets first second ∨ Confuses sets' second first := by
  obtain rfl | hextends | hextends := overlaps_of_spell h
  · exact .inl ⟨rfl, List.append_cancel_left h⟩
  · exact .inr (.inl (confuses_of_extends hextends hchosen h))
  · exact .inr (.inr (confuses_of_extends hextends hchosen' h.symm))

end Words

/-! ## Combinations as they are spelled -/

/-- The choices of one rule: no instruction, with the next choice behind it, can be taken for
another one. -/
def ChoicesApart : List (List String) → Prop
  | [] => True
  | set :: sets =>
    (∀ first ∈ set, ∀ second ∈ set, ¬ Confuses sets first second) ∧ ChoicesApart sets

instance decidableChoicesApart : ∀ sets, Decidable (ChoicesApart sets)
  | [] => inferInstanceAs (Decidable True)
  | _ :: sets =>
    have := decidableChoicesApart sets
    inferInstanceAs (Decidable (_ ∧ ChoicesApart sets))

/-- The words of two rules, up to where they have none in common: no word of one, with the next
choice behind it, can be taken for a word of the other. -/
def SetsApart : List (List String) → List (List String) → Prop
  | [], [] => False
  | [], _ :: _ => True
  | _ :: _, [] => True
  | set :: sets, set' :: sets' =>
    (∀ word ∈ set, ∀ word' ∈ set', ¬ Confuses sets word word' ∧ ¬ Confuses sets' word' word) ∧
      ((∃ word ∈ set, word ∈ set') → SetsApart sets sets')

instance decidableSetsApart : ∀ sets sets', Decidable (SetsApart sets sets')
  | [], [] => inferInstanceAs (Decidable False)
  | [], _ :: _ => inferInstanceAs (Decidable True)
  | _ :: _, [] => inferInstanceAs (Decidable True)
  | set :: sets, set' :: sets' =>
    have := decidableSetsApart sets sets'
    inferInstanceAs (Decidable (_ ∧ ((∃ word ∈ set, word ∈ set') → SetsApart sets sets')))

section Spelled

variable {sets sets' : List (List String)} {chosen chosen' : List String}

/-- **A combination can be told from its spelling**: from the left, one choice after the other. -/
theorem ChoicesApart.spellChoice_inj (h : ChoicesApart sets) (hchosen : chosen ∈ product sets)
    (hchosen' : chosen' ∈ product sets) (heq : spellChoice chosen = spellChoice chosen') :
    chosen = chosen' := by
  induction sets generalizing chosen chosen' with
  | nil =>
    rw [(eq_nil_iff_of_mem_product hchosen).2 rfl, (eq_nil_iff_of_mem_product hchosen').2 rfl]
  | cons set sets ih =>
    obtain _ | ⟨hmem, hmore⟩ := mem_product.1 hchosen
    obtain _ | ⟨hmem', hmore'⟩ := mem_product.1 hchosen'
    rw [← mem_product] at hmore hmore'
    obtain ⟨rfl, hspell⟩ | hconfuses | hconfuses :=
      eq_or_confuses hmore hmore' (List.cons.inj heq).2
    · rw [ih h.2 hmore hmore' hspell]
    · exact absurd hconfuses (h.1 _ hmem _ hmem')
    · exact absurd hconfuses (h.1 _ hmem' _ hmem)

/-- **Combinations of choices that are kept apart are spelled differently.** -/
theorem SetsApart.spellChoice_ne (h : SetsApart sets sets') (hchosen : chosen ∈ product sets)
    (hchosen' : chosen' ∈ product sets') : spellChoice chosen ≠ spellChoice chosen' := by
  induction sets, sets' using SetsApart.induct generalizing chosen chosen' with
  | case1 => exact h.elim
  | case2 =>
    obtain _ | _ := mem_product.1 hchosen
    obtain _ | _ := mem_product.1 hchosen'
    rw [spellChoice_cons]
    exact (List.cons_ne_nil _ _).symm
  | case3 =>
    obtain _ | _ := mem_product.1 hchosen
    obtain _ | _ := mem_product.1 hchosen'
    rw [spellChoice_cons]
    exact List.cons_ne_nil _ _
  | case4 set sets set' sets' ih =>
    obtain _ | ⟨hmem, hmore⟩ := mem_product.1 hchosen
    obtain _ | ⟨hmem', hmore'⟩ := mem_product.1 hchosen'
    rw [← mem_product] at hmore hmore'
    intro heq
    obtain ⟨rfl, hspell⟩ | hconfuses | hconfuses :=
      eq_or_confuses hmore hmore' (List.cons.inj heq).2
    · exact ih (h.2 ⟨_, hmem, hmem'⟩) hmore hmore' hspell
    · exact (h.1 _ hmem _ hmem').1 hconfuses
    · exact (h.1 _ hmem _ hmem').2 hconfuses

end Spelled

/-! ## The names of a rule -/

/-- The name of the matcher of a rule for chosen instructions. -/
def matcherName (rule : Node) (chosen : List String) : String :=
  rule.text ++ String.join (chosen.map ("_" ++ ·))

theorem toList_matcherName (rule : Node) (chosen : List String) :
    (matcherName rule chosen).toList = rule.text.toList ++ spellChoice chosen := by
  rw [matcherName, String.toList_append, String.toList_join, List.flatMap_map]
  simp only [String.toList_append]
  rfl

/-- The sets of instructions that a rule chooses from, one for each of its bindings. -/
def Expansion.choices (rule : Node) (table : AliasTable) : List (List String) :=
  match (plan rule table).result with
  | .ok plan => plan.candidates
  | .error _ => []

theorem Expansion.choices_of_plan {rule : Node} {table : AliasTable} {plan : Plan}
    (h : (Expansion.plan rule table).result = .ok plan) : choices rule table = plan.candidates := by
  rw [choices, h]

/-- No set to choose from lists an instruction twice. -/
theorem Expansion.nodup_choices (rule : Node) (table : AliasTable) :
    ∀ set ∈ choices rule table, set.Nodup := by
  rw [choices]
  split
  case h_1 plan hplan =>
    obtain ⟨aliases, -, hsets, -⟩ := exists_of_plan hplan
    exact nodup_of_candidates hsets
  case h_2 => exact fun _ hmem => absurd hmem List.not_mem_nil

/-- **An expansion without a fault names its matchers after the combinations that it visits.** -/
theorem Expansion.map_name_matchers {rule : Node} {table : AliasTable}
    (h : (ofRule rule table).fault = none) :
    (ofRule rule table).matchers.map Matcher.name
      = (visited (choices rule table)).map (matcherName rule) := by
  obtain ⟨plan, hplan, hmatchers⟩ := forall₂_of_fault_eq_none h
  obtain ⟨aliases, -, hsets, -⟩ := exists_of_plan hplan
  have hnamed := matchersOf_of_forall₂
    (fun _ hchosen => length_of_mem_product hsets (mem_visited.1 hchosen).2) hmatchers
  rw [choices_of_plan hplan, eq_comm, ← List.forall₂_eq_eq_eq, List.forall₂_map_left_iff,
    List.forall₂_map_right_iff]
  exact hnamed.imp fun _ _ hmatcher => hmatcher.2.symm

/-- The words that the names of a rule are made of: its own, and its choices. -/
def wordSets (table : AliasTable) (rule : Node) : List (List String) :=
  [rule.text] :: Expansion.choices rule table

section Rules

variable {table : AliasTable} {rule : Node} {chosen : List String}

/-- The words of a matcher's name are chosen from the word sets of its rule. -/
theorem cons_mem_product_wordSets (h : chosen ∈ product (Expansion.choices rule table)) :
    rule.text :: chosen ∈ product (wordSets table rule) :=
  mem_product.2 (.cons (List.mem_singleton_self _) (mem_product.1 h))

theorem spellChoice_cons_text (rule : Node) (chosen : List String) :
    spellChoice (rule.text :: chosen) = '_' :: (matcherName rule chosen).toList := by
  rw [spellChoice_cons, toList_matcherName]

/-- Rules whose words are kept apart have no name in common. -/
theorem SetsApart.matcherName_ne {other : Node} {chosen' : List String}
    (h : SetsApart (wordSets table rule) (wordSets table other))
    (hchosen : chosen ∈ product (Expansion.choices rule table))
    (hchosen' : chosen' ∈ product (Expansion.choices other table)) :
    matcherName rule chosen ≠ matcherName other chosen' := fun heq => by
  refine h.spellChoice_ne (cons_mem_product_wordSets hchosen)
    (cons_mem_product_wordSets hchosen') ?_
  rw [spellChoice_cons_text, spellChoice_cons_text, heq]

/-- A rule whose words are kept apart from a name does not take it. -/
theorem SetsApart.ne_matcherName {name : String} (h : SetsApart [[name]] (wordSets table rule))
    (hchosen : chosen ∈ product (Expansion.choices rule table)) :
    name ≠ matcherName rule chosen := fun heq => by
  have hname : [name] ∈ product [[name]] := List.mem_singleton_self _
  refine h.spellChoice_ne hname (cons_mem_product_wordSets hchosen) ?_
  rw [spellChoice_cons_text, ← heq, spellChoice_cons]
  exact congrArg ('_' :: ·) (List.append_nil _)

/-- The matchers of one rule have a name each. -/
theorem ChoicesApart.nodup_names (h : ChoicesApart (Expansion.choices rule table)) :
    ((visited (Expansion.choices rule table)).map (matcherName rule)).Nodup := by
  refine ((nodup_product (Expansion.nodup_choices rule table)).sublist
    (visited_sublist_product _)).map_on ?_
  intro chosen hchosen chosen' hchosen' heq
  rw [← String.toList_inj, toList_matcherName, toList_matcherName,
    List.append_cancel_left_eq] at heq
  exact h.spellChoice_inj (mem_visited.1 hchosen).2 (mem_visited.1 hchosen').2 heq

end Rules

/-! ## All rules of a file -/

namespace GeneratedFile

/-- Rules are expanded one after the other, without a fault. -/
theorem names_of_emit {table : AliasTable} {rules : List Node} {emission final : Emission}
    (h : (emit table emission rules).result = .ok final) :
    (∀ rule ∈ rules, (Expansion.ofRule rule table).fault = none) ∧
      final.registry.names = emission.registry.names
        ++ rules.flatMap fun rule => (Expansion.ofRule rule table).matchers.map Matcher.name := by
  induction rules generalizing emission with
  | nil =>
    obtain rfl := Except.ok.inj h
    simp
  | cons rule rules ih =>
    rw [emit, Logged.result_bind, bind_eq_ok_iff] at h
    obtain ⟨count, hcount, hrest⟩ := h
    have hfault : (Expansion.ofRule rule table).fault = none := by
      rw [expandRule, Expansion.count] at hcount
      cases hfault : (Expansion.ofRule rule table).fault with
      | none => rfl
      | some fault => rw [hfault] at hcount; cases hcount
    obtain ⟨hfaults, hnames⟩ := ih hrest
    refine ⟨List.forall_mem_cons.2 ⟨hfault, hfaults⟩, ?_⟩
    rw [hnames, (emits_of_matchers rfl emission).1, List.flatMap_cons, List.append_assoc]

/-- What the functions of a file are called. -/
theorem names_of_ofProgram {config : Config} {program : Node} {stem : String} {file : GeneratedFile}
    (h : (ofProgram config program stem).result = .ok file) :
    ∃ table, (AliasTable.build program).result = .ok table ∧
      (∀ rule ∈ program.rules, (Expansion.ofRule rule table).fault = none) ∧
      file.initFunction = initFunctionName config stem ∧
      file.functionNames = program.rules.flatMap fun rule =>
        (Expansion.ofRule rule table).matchers.map Matcher.name := by
  rw [ofProgram, Logged.result_bind, bind_eq_ok_iff] at h
  obtain ⟨table, htable, h⟩ := h
  rw [Logged.result_bind, bind_eq_ok_iff] at h
  obtain ⟨emission, hemission, h⟩ := h
  obtain rfl := Except.ok.inj h
  obtain ⟨hfaults, hnames⟩ := names_of_emit hemission
  exact ⟨table, htable, hfaults, rfl, hnames⟩

end GeneratedFile

/-- A text that compiles is a program that has a C file. -/
theorem exists_of_compileText {config : Config} {source stem label : String} {file : GeneratedFile}
    (h : (compileText config source stem label).result = .ok file) :
    ∃ tree, parse source = .ok tree ∧
      (GeneratedFile.ofProgram config tree stem).result = .ok file := by
  delta compileText at h
  split at h
  case h_1 => cases h
  case h_2 tree hparse =>
    refine ⟨tree, hparse, ?_⟩
    rw [Logged.result_mapError] at h
    cases hfile : (GeneratedFile.ofProgram config tree stem).result with
    | error fault => rw [hfile] at h; cases h
    | ok file' => rw [hfile] at h; rw [Except.ok.inj h]

/-- **The names in a pattern file keep the functions of its C file apart**: those of two rules, of
a rule and the registration function, and of one rule. -/
structure NamesApart (initFunction : String) (table : AliasTable) (rules : List Node) : Prop where
  pairwise : rules.Pairwise fun first second =>
    SetsApart (wordSets table first) (wordSets table second)
  init : ∀ rule ∈ rules, SetsApart [[initFunction]] (wordSets table rule)
  choices : ∀ rule ∈ rules, ChoicesApart (Expansion.choices rule table)

section File

variable {initFunction : String} {table : AliasTable} {rules : List Node}

/-- Names are apart if the words they are made of are, for rules, for the file and within a rule. -/
theorem namesApart_iff :
    NamesApart initFunction table rules ↔
      (rules.Pairwise fun first second =>
        SetsApart (wordSets table first) (wordSets table second)) ∧
      (∀ rule ∈ rules, SetsApart [[initFunction]] (wordSets table rule)) ∧
      ∀ rule ∈ rules, ChoicesApart (Expansion.choices rule table) :=
  ⟨fun ⟨hpairwise, hinit, hchoices⟩ => ⟨hpairwise, hinit, hchoices⟩,
    fun ⟨hpairwise, hinit, hchoices⟩ => ⟨hpairwise, hinit, hchoices⟩⟩

instance : Decidable (NamesApart initFunction table rules) :=
  decidable_of_iff _ namesApart_iff.symm

/-- **Apart words make distinct names**, that of the initializer included. -/
theorem NamesApart.nodup_names (h : NamesApart initFunction table rules) :
    (initFunction :: rules.flatMap fun rule =>
      (visited (Expansion.choices rule table)).map (matcherName rule)).Nodup := by
  rw [List.nodup_cons, List.nodup_flatMap]
  refine ⟨fun hmem => ?_, fun rule hrule => (h.choices rule hrule).nodup_names,
    h.pairwise.imp fun {rule other} hapart => ?_⟩
  · obtain ⟨rule, hrule, hmem⟩ := List.mem_flatMap.1 hmem
    obtain ⟨chosen, hchosen, hname⟩ := List.mem_map.1 hmem
    exact (h.init rule hrule).ne_matcherName (mem_visited.1 hchosen).2 hname.symm
  · intro name hname hname'
    obtain ⟨chosen, hchosen, rfl⟩ := List.mem_map.1 hname
    obtain ⟨chosen', hchosen', heq⟩ := List.mem_map.1 hname'
    exact hapart.matcherName_ne (mem_visited.1 hchosen).2 (mem_visited.1 hchosen').2 heq.symm

end File

/-- **The functions of a C file are named after what they are made from, and no two share a name
unless words of the pattern file can be taken for each other.**  The matchers of a rule are called
after the rule and the instructions chosen, in the order of rules and combinations; a rule has one
for each of its combinations, unless these overflow their count. -/
theorem functionNames_nodup {config : Config} {source stem label : String} {file : GeneratedFile}
    (h : (compileText config source stem label).result = .ok file) :
    ∃ tree table, parse source = .ok tree ∧ (AliasTable.build tree).result = .ok table ∧
      file.initFunction = GeneratedFile.initFunctionName config stem ∧
      (file.functionNames = tree.rules.flatMap fun rule =>
        (visited (Expansion.choices rule table)).map (matcherName rule)) ∧
      (NamesApart file.initFunction table tree.rules →
        (file.initFunction :: file.functionNames).Nodup) := by
  obtain ⟨tree, hparse, hprogram⟩ := exists_of_compileText h
  obtain ⟨table, htable, hfaults, hinit, hnames⟩ := GeneratedFile.names_of_ofProgram hprogram
  have hchosen : file.functionNames = tree.rules.flatMap fun rule =>
      (visited (Expansion.choices rule table)).map (matcherName rule) := by
    rw [hnames]
    exact List.flatMap_congr fun rule hrule => Expansion.map_name_matchers (hfaults rule hrule)
  refine ⟨tree, table, hparse, htable, hinit, hchosen, fun hapart => ?_⟩
  rw [hchosen]
  exact hapart.nodup_names

namespace Apart

/-- Rules whose names and choices go on from each other, and two rules of one name, and yet no two
functions that share a name. -/
def source : String :=
  "pattern p: \x7b a, a_b \x7d \x7b c, d_c \x7d --> \x7b \x7d pattern p_b: a --> \x7b \x7d" ++
    "pattern p: a --> \x7b \x7d pattern p: \x7b e, f \x7d --> \x7b \x7d"

theorem isSome_compileText :
    (compileText .default source "s" "s").result.toOption.isSome = true := by
  decide +kernel

theorem namesApart {tree : Node} {table : AliasTable} (hparse : parse source = .ok tree)
    (htable : (AliasTable.build tree).result = .ok table) :
    NamesApart "init_patterns_s" table tree.rules := by
  have h : ((parse source).toOption.bind fun tree => (AliasTable.build tree).result.toOption.map
      fun table => decide (NamesApart "init_patterns_s" table tree.rules)) = some true := by
    decide +kernel
  rw [hparse] at h
  dsimp only [Except.toOption, Option.bind] at h
  rw [htable] at h
  exact of_decide_eq_true (Option.some.inj h)

end Apart

/-- A file with apart words, and the distinct names of its functions. -/
theorem functionNames_nodup_apart :
    ∃ file, (compileText .default Apart.source "s" "s").result = .ok file ∧
      (file.initFunction :: file.functionNames).Nodup := by
  obtain ⟨file, hfile⟩ := Option.isSome_iff_exists.1 Apart.isSome_compileText
  have hfile := eq_ok_of_toOption hfile
  obtain ⟨tree, table, hparse, htable, hinit, -, hnodup⟩ := functionNames_nodup hfile
  have hname : GeneratedFile.initFunctionName .default "s" = "init_patterns_s" := by decide +kernel
  refine ⟨file, hfile, hnodup ?_⟩
  rw [hinit, hname]
  exact Apart.namesApart hparse htable

/-! ## Files with a shared name -/

/-- A pattern file compiles, to functions of which two share a name. -/
def SharesName (source : String) : Prop :=
  ∃ file, (compileText .default source "s" "s").result = .ok file ∧
    ¬ (file.initFunction :: file.functionNames).Nodup

/-- Names listed twice are shared by two functions of the file. -/
theorem sharesName_of_names {source : String} (names : List String)
    (h : ((compileText .default source "s" "s").result.toOption.map fun file =>
      file.initFunction :: file.functionNames) = some names) (hnames : ¬ names.Nodup) :
    SharesName source := by
  obtain ⟨file, hfile, rfl⟩ := Option.map_eq_some_iff.1 h
  exact ⟨file, eq_ok_of_toOption hfile, hnames⟩

/-- **Functions can share a name**: matchers of two rules of one name, of one rule (`a_b` and `c`
against `a` and `b_c`), of a rule and one whose name goes on from it, and a matcher and the
registration function. -/
theorem functionNames_not_nodup :
    SharesName "pattern p: a --> \x7b \x7d pattern p: b --> \x7b \x7d" ∧
      SharesName "pattern p: \x7b a, a_b \x7d \x7b b_c, c \x7d --> \x7b \x7d" ∧
      SharesName "pattern p: \x7b a, b \x7d --> \x7b \x7d pattern p_a: c --> \x7b \x7d" ∧
      SharesName "pattern init_patterns_s: a --> \x7b \x7d" := by
  refine ⟨?_, ?_, ?_, ?_⟩
  · exact sharesName_of_names ["init_patterns_s", "p", "p"] (by decide +kernel) (by decide)
  · exact sharesName_of_names ["init_patterns_s", "p_a_b_c", "p_a_c", "p_a_b_b_c", "p_a_b_c"]
      (by decide +kernel) (by decide)
  · exact sharesName_of_names ["init_patterns_s", "p_a", "p_b", "p_a"] (by decide +kernel)
      (by decide)
  · exact sharesName_of_names ["init_patterns_s", "init_patterns_s"] (by decide +kernel)
      (by decide)

end Peephole

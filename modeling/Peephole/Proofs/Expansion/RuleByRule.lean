import Peephole.GeneratedFile
import Peephole.Proofs.Binding.Tables
import Peephole.Proofs.Expansion.Emission

/-!
# Proofs/Expansion/RuleByRule — a file is the sum of its rules

The rules of a file are expanded into one emission, and yet each comes out as it does alone: what a
rule emits is put behind what was emitted before (`expandRule_eq_append`), and whether it has a
fault does not depend on it.  So a file is assembled from what its rules emit alone
(`GeneratedFile.assemble`), and fails where the first of them does.

What a rule sees of its file is what the table knows.  Files with the same rules and tables that
know the same are the same (`ofProgram_eq_of_alike`).
-/

namespace Peephole

/-! ## Expansions that come out the same -/

namespace Expansion

variable {rule other : Node} {table table' : AliasTable}

/-- Two expansions have the same matchers and stop at the same fault. -/
def Same (first second : Expansion) : Prop :=
  first.matchers = second.matchers ∧ first.fault = second.fault

/-- Plans that give the same matchers for the same choices make the same expansion. -/
theorem same_of_plans (htext : rule.text = other.text)
    (h : EndsAlike (fun first second => first.candidates = second.candidates ∧
        ∀ chosen, first.matcher rule chosen = second.matcher other chosen)
      (plan rule table).result (plan other table').result) :
    Same (ofRule rule table) (ofRule other table') := by
  unfold ofRule
  dsimp only
  revert h
  generalize (plan rule table).result = first
  generalize (plan other table').result = second
  rintro (fault | ⟨hcandidates, hmatcher⟩)
  · exact ⟨rfl, by rw [htext]⟩
  · dsimp only
    rw [hcandidates, funext hmatcher]
    split
    case isTrue => exact ⟨rfl, rfl⟩
    case isFalse => exact ⟨rfl, rfl⟩

theorem candidates_eq_of_alike (h : table.Alike table') (bindings : List Binding) :
    candidates table bindings = candidates table' bindings := by
  induction bindings with
  | nil => rfl
  | cons binding bindings ih => rw [candidates, candidates, h, ih]

/-- **A rule is expanded by what the table knows.** -/
theorem same_of_alike (h : table.Alike table') (rule : Node) :
    Same (ofRule rule table) (ofRule rule table') := by
  refine same_of_plans rfl ?_
  rw [result_plan, result_plan]
  refine (Binding.resolve_alike h rule).bind ?_
  rintro ⟨bindings, aliases⟩ ⟨_, aliases'⟩ ⟨rfl, haliases⟩
  dsimp only
  rw [candidates_eq_of_alike haliases]
  exact .refl (fun _ => ⟨rfl, fun _ => rfl⟩) _

/-- Rules with the same expansion emit the same and fail alike. -/
theorem Same.expandRule_eq (h : Same (ofRule rule table) (ofRule other table'))
    (emission : Emission) :
    (expandRule rule table emission).1.result = (expandRule other table' emission).1.result ∧
      (expandRule rule table emission).2 = (expandRule other table' emission).2 := by
  rw [expandRule, expandRule, count, count, h.1, h.2]
  exact ⟨rfl, rfl⟩

end Expansion

namespace GeneratedFile

/-- Rules with the same expansions, one by one, emit the same together. -/
theorem emit_eq_of_same {table table' : AliasTable} {rules others : List Node}
    (h : List.Forall₂ (fun rule other =>
      (Expansion.ofRule rule table).Same (Expansion.ofRule other table')) rules others)
    (emission : Emission) :
    (emit table emission rules).result = (emit table' emission others).result := by
  induction h generalizing emission with
  | nil => rfl
  | cons hfirst _ ih =>
    obtain ⟨hcount, hemission⟩ := hfirst.expandRule_eq emission
    rw [emit, emit, Logged.result_bind, Logged.result_bind, hcount, hemission]
    simp only [ih]

/-- Files whose rules are expanded the same are the same. -/
theorem ofProgram_eq_of_same {config : Config} {program other : Node} {stem : String}
    (h : EndsAlike (fun table table' => List.Forall₂ (fun rule rule' =>
        (Expansion.ofRule rule table).Same (Expansion.ofRule rule' table'))
        program.rules other.rules)
      (AliasTable.build program).result (AliasTable.build other).result) :
    (ofProgram config program stem).result = (ofProgram config other stem).result := by
  rw [ofProgram, ofProgram, Logged.result_bind, Logged.result_bind]
  refine h.bind_eq fun table table' _ _ hrules => ?_
  rw [Logged.result_bind, Logged.result_bind, emit_eq_of_same hrules]
  rfl

/-- **What a file comes out as depends on its rules and on what its table knows.** -/
theorem ofProgram_eq_of_alike {config : Config} {program other : Node} {stem : String}
    (hrules : program.rules = other.rules)
    (h : EndsAlike AliasTable.Alike (AliasTable.build program).result
      (AliasTable.build other).result) :
    (ofProgram config program stem).result = (ofProgram config other stem).result := by
  refine ofProgram_eq_of_same (h.imp fun table table' _ _ halike => ?_)
  rw [hrules]
  exact List.forall₂_same.2 fun rule _ => Expansion.same_of_alike halike rule

end GeneratedFile

/-! ## Rules alone -/

namespace Emission

/-- One emission behind another. -/
def append (first second : Emission) : Emission :=
  ⟨⟨first.registry.names ++ second.registry.names⟩, first.text ++ second.text⟩

/-- Emissions in order. -/
def concat (emissions : List Emission) : Emission :=
  ⟨⟨emissions.flatMap (·.registry.names)⟩, String.join (emissions.map Emission.text)⟩

theorem append_concat_cons (first second : Emission) (emissions : List Emission) :
    (first.append second).append (concat emissions)
      = first.append (concat (second :: emissions)) := by
  simp [append, concat, String.append_assoc]

theorem concat_append (first second : List Emission) :
    concat (first ++ second) = (concat first).append (concat second) := by
  simp [append, concat]

end Emission

/-- What a rule emits alone. -/
def emittedAlone (table : AliasTable) (rule : Node) : Emission := (expandRule rule table .empty).2

/-- A rule that is expanded alone has no fault. -/
def SucceedsAlone (table : AliasTable) (rule : Node) : Prop :=
  ∃ count, (expandRule rule table .empty).1.result = .ok count

/-- A rule that is expanded alone has a fault. -/
def FailsAlone (table : AliasTable) (rule : Node) (fault : Fault) : Prop :=
  (expandRule rule table .empty).1.result = .error fault

/-- **A rule does not see what was emitted before it.** -/
theorem expandRule_eq_append (rule : Node) (table : AliasTable) (emission : Emission) :
    expandRule rule table emission
      = ((expandRule rule table .empty).1, emission.append (emittedAlone table rule)) := by
  simp only [emittedAlone, expandRule, Emission.addAll_eq, Emission.append, Emission.empty,
    Registry.empty, List.nil_append, String.empty_append]

namespace GeneratedFile

variable {table : AliasTable} {rules : List Node} {emission final : Emission} {fault : Fault}

/-- **Rules emit if each does alone**, and emit what each does alone, in their order. -/
theorem emit_eq_ok_iff :
    (emit table emission rules).result = .ok final ↔
      (∀ rule ∈ rules, SucceedsAlone table rule) ∧
        final = emission.append (.concat (rules.map (emittedAlone table))) := by
  induction rules generalizing emission with
  | nil =>
    have hnil : emission.append (.concat []) = emission := by
      simp [Emission.append, Emission.concat]
    rw [List.map_nil, hnil]
    exact ⟨fun h => ⟨by simp, (Except.ok.inj h).symm⟩, fun h => h.2 ▸ rfl⟩
  | cons rule rules ih =>
    rw [emit, expandRule_eq_append, Logged.result_bind, bind_eq_ok_iff]
    simp only [ih, List.forall_mem_cons, List.map_cons, Emission.append_concat_cons]
    exact ⟨fun ⟨count, hcount, hrules, hfinal⟩ => ⟨⟨⟨count, hcount⟩, hrules⟩, hfinal⟩,
      fun ⟨⟨⟨count, hcount⟩, hrules⟩, hfinal⟩ => ⟨count, hcount, hrules, hfinal⟩⟩

/-- The first rule of a list that fails alone, with its fault. -/
def FirstFault (table : AliasTable) (rules : List Node) (fault : Fault) : Prop :=
  ∃ before rule behind, rules = before ++ rule :: behind ∧
    (∀ earlier ∈ before, SucceedsAlone table earlier) ∧ FailsAlone table rule fault

/-- Rules fail with the fault of the first that fails alone. -/
theorem emit_eq_error_iff :
    (emit table emission rules).result = .error fault ↔ FirstFault table rules fault := by
  induction rules generalizing emission with
  | nil =>
    refine iff_of_false (fun h => by cases h) ?_
    rintro ⟨before, rule, behind, hnil, -⟩
    simp at hnil
  | cons rule rules ih =>
    rw [emit, expandRule_eq_append, Logged.result_bind, bind_eq_error_iff]
    constructor
    · rintro (hfault | ⟨count, hcount, hfault⟩)
      · exact ⟨[], rule, rules, rfl, by simp, hfault⟩
      · obtain ⟨before, failing, behind, rfl, hbefore, hfailing⟩ := ih.1 hfault
        exact ⟨rule :: before, failing, behind, rfl,
          List.forall_mem_cons.2 ⟨⟨count, hcount⟩, hbefore⟩, hfailing⟩
    · rintro ⟨_ | ⟨first, before⟩, failing, behind, hrules, hbefore, hfailing⟩
      · obtain ⟨rfl, -⟩ := List.cons.inj hrules
        exact .inl hfailing
      · obtain ⟨rfl, rfl⟩ := List.cons.inj hrules
        obtain ⟨⟨count, hcount⟩, hbefore⟩ := List.forall_mem_cons.1 hbefore
        exact .inr ⟨count, hcount, ih.2 ⟨before, failing, behind, rfl, hbefore, hfailing⟩⟩

/-! ## Files -/

/-- The file that an emission makes: the preamble, ended by a line break unless it is empty, the
matchers, and a function with one line for each of their names. -/
def assemble (config : Config) (stem : String) (emission : Emission) : GeneratedFile where
  code := config.preamble ++
    (if config.preamble ≠ "" ∧ config.preamble.toList.getLast? ≠ some '\n' then "\n" else "") ++
    emission.text ++
    ("int " ++ initFunctionName config stem ++ "(void)\n\x7b\n" ++
      String.join (emission.registry.names.map fun name =>
        "    " ++ config.registrar ++ "(" ++ name ++ ");\n") ++
      "    return 1;\n\x7d\n")
  initFunction := initFunctionName config stem
  functionNames := emission.registry.names

/-- Two emissions assemble to the same file only if they are the same. -/
theorem assemble_inj {config : Config} {stem : String} {first second : Emission}
    (h : assemble config stem first = assemble config stem second) : first = second := by
  obtain ⟨⟨names⟩, text⟩ := first
  obtain ⟨⟨names'⟩, text'⟩ := second
  obtain ⟨hcode, -, hnames⟩ := GeneratedFile.mk.inj h
  obtain rfl : names = names' := hnames
  obtain rfl : text = text' :=
    (String.append_right_inj _).1 ((String.append_left_inj _).1 hcode)
  rfl

/-- The preamble is ended by a line break unless it is empty or ends in one. -/
theorem preambleText_eq (config : Config) :
    preambleText config = config.preamble ++
      (if config.preamble ≠ "" ∧ config.preamble.toList.getLast? ≠ some '\n' then "\n"
      else "") := by
  unfold preambleText
  by_cases h : config.preamble = "" ∨ config.preamble.toList.getLast? = some '\n'
  · rw [if_pos h, if_neg fun hnot => h.elim hnot.1 hnot.2, String.append_empty]
  · rw [if_neg h, if_pos (not_or.1 h)]

variable {config : Config} {program other : Node} {stem : String} {file : GeneratedFile}

/-- A file of a program, rule by rule. -/
theorem ofProgram_eq_ok_iff :
    (ofProgram config program stem).result = .ok file ↔
      ∃ table, (AliasTable.build program).result = .ok table ∧
        (∀ rule ∈ program.rules, SucceedsAlone table rule) ∧
        file = assemble config stem (.concat (program.rules.map (emittedAlone table))) := by
  have hempty (emission : Emission) : Emission.empty.append emission = emission := by
    simp [Emission.append, Emission.empty, Registry.empty]
  rw [ofProgram, Logged.result_bind, bind_eq_ok_iff]
  refine exists_congr fun table => and_congr_right fun _ => ?_
  rw [Logged.result_bind, bind_eq_ok_iff]
  simp only [emit_eq_ok_iff, hempty, Logged.result_bind, Logged.result_report, Logged.result_pure]
  rw [assemble, ← preambleText_eq]
  constructor
  · rintro ⟨emission, ⟨hrules, rfl⟩, hfile⟩
    exact ⟨hrules, (Except.ok.inj hfile).symm⟩
  · rintro ⟨hrules, rfl⟩
    exact ⟨_, ⟨hrules, rfl⟩, rfl⟩

/-- A program fails at its declarations, or else at its first rule that fails. -/
theorem ofProgram_eq_error_iff :
    (ofProgram config program stem).result = .error fault ↔
      (AliasTable.build program).result = .error fault ∨
        ∃ table, (AliasTable.build program).result = .ok table ∧
          FirstFault table program.rules fault := by
  rw [ofProgram, Logged.result_bind, bind_eq_error_iff]
  refine or_congr_right (exists_congr fun table => and_congr_right fun _ => ?_)
  rw [Logged.result_bind, bind_eq_error_iff, emit_eq_error_iff]
  refine ⟨fun h => h.resolve_right ?_, .inl⟩
  rintro ⟨emission, -, hfault⟩
  cases hfault

/-- A name that C takes for an identifier: a letter or `_`, then letters, digits and `_`. -/
def IsCName (name : String) : Prop :=
  ∃ c cs, name.toList = c :: cs ∧ (c.isAlpha = true ∨ c = '_') ∧
    ∀ d ∈ cs, d.isAlpha = true ∨ d.isDigit = true ∨ d = '_'

/-- What passes for an identifier of C is a name in C. -/
theorem isCName_of_isCIdentifier {name : String} (h : isCIdentifier name = true) :
    IsCName name := by
  unfold isCIdentifier at h
  split at h
  case h_1 => cases h
  case h_2 c cs hname =>
    refine ⟨c, cs, hname, by simpa using (Bool.and_eq_true_iff.1 h).1, fun d hd => ?_⟩
    have hword := List.all_eq_true.1 (Bool.and_eq_true_iff.1 h).2 d hd
    simpa [isWordChar, Char.isAlphanum, or_assoc] using hword

/-- A rule registers names in C only. -/
theorem isCName_of_mem_emittedAlone {rule : Node} {name : String}
    (h : name ∈ (emittedAlone table rule).registry.names) : IsCName name := by
  rw [emittedAlone, (emits_of_matchers rfl Emission.empty).1] at h
  obtain ⟨matcher, hmem, rfl⟩ := List.mem_map.1 h
  obtain ⟨plan, chosen, -, -, hmatcher⟩ := Expansion.exists_chosen_of_mem hmem
  obtain ⟨_, _, -, -, hname, -⟩ :=
    Matcher.exists_of_ofChoice (Expansion.matcher_eq_ok_iff.1 hmatcher)
  exact isCName_of_isCIdentifier hname

/-- The functions of a file have names in C. -/
theorem isCName_of_ofProgram (h : (ofProgram config program stem).result = .ok file) :
    ∀ name ∈ file.functionNames, IsCName name := by
  obtain ⟨table, -, -, rfl⟩ := ofProgram_eq_ok_iff.1 h
  intro name hname
  obtain ⟨emission, hmem, hname⟩ := List.mem_flatMap.1 hname
  obtain ⟨rule, -, rfl⟩ := List.mem_map.1 hmem
  exact isCName_of_mem_emittedAlone hname

/-- Rules put behind each other, under the same declarations. -/
theorem ofProgram_append {first second : Node}
    (hfirst : AliasTable.leadingDeclarations first = AliasTable.leadingDeclarations program)
    (hsecond : AliasTable.leadingDeclarations second = AliasTable.leadingDeclarations program)
    (hrules : program.rules = first.rules ++ second.rules) :
    (ofProgram config program stem).result = .ok file ↔
      ∃ emission emission',
        (ofProgram config first stem).result = .ok (assemble config stem emission) ∧
        (ofProgram config second stem).result = .ok (assemble config stem emission') ∧
        file = assemble config stem (emission.append emission') := by
  have hbuild : AliasTable.build first = AliasTable.build program := by
    rw [AliasTable.build, AliasTable.build, hfirst]
  have hbuild' : AliasTable.build second = AliasTable.build program := by
    rw [AliasTable.build, AliasTable.build, hsecond]
  simp only [ofProgram_eq_ok_iff, hbuild, hbuild', hrules, List.forall_mem_append, List.map_append,
    Emission.concat_append]
  constructor
  · rintro ⟨table, htable, ⟨hrules, hrules'⟩, rfl⟩
    exact ⟨_, _, ⟨table, htable, hrules, rfl⟩, ⟨table, htable, hrules', rfl⟩, rfl⟩
  · rintro ⟨emission, emission', ⟨table, htable, hrules, heq⟩, ⟨table', htable', hrules', heq'⟩,
      rfl⟩
    obtain rfl := Except.ok.inj (htable.symm.trans htable')
    exact ⟨table, htable, ⟨hrules, hrules'⟩, by rw [assemble_inj heq, assemble_inj heq']⟩

/-- **A file is generated rule by rule.**  It fails as its table does, or else as the first of its
rules that fails alone; otherwise it is assembled from what its rules emit alone, under names that C
takes.  So rules put behind each other have their functions behind each other, and the order of the
declarations makes no difference. -/
theorem ofProgram_rule_by_rule (config : Config) (program : Node) (stem : String) :
    (∀ fault, (ofProgram config program stem).result = .error fault ↔
      (AliasTable.build program).result = .error fault ∨
        ∃ table, (AliasTable.build program).result = .ok table ∧
          FirstFault table program.rules fault) ∧
    (∀ file, (ofProgram config program stem).result = .ok file ↔
      ∃ table, (AliasTable.build program).result = .ok table ∧
        (∀ rule ∈ program.rules, SucceedsAlone table rule) ∧
        file = assemble config stem (.concat (program.rules.map (emittedAlone table)))) ∧
    (∀ file, (ofProgram config program stem).result = .ok file →
      ∀ name ∈ file.functionNames, IsCName name) ∧
    (∀ first second,
      AliasTable.leadingDeclarations first = AliasTable.leadingDeclarations program →
      AliasTable.leadingDeclarations second = AliasTable.leadingDeclarations program →
      program.rules = first.rules ++ second.rules →
      ∀ file, (ofProgram config program stem).result = .ok file ↔ ∃ emission emission',
        (ofProgram config first stem).result = .ok (assemble config stem emission) ∧
        (ofProgram config second stem).result = .ok (assemble config stem emission') ∧
        file = assemble config stem (emission.append emission')) ∧
    ∀ other, other.rules = program.rules →
      (AliasTable.leadingDeclarations other).Perm (AliasTable.leadingDeclarations program) →
      (∀ declaration ∈ AliasTable.leadingDeclarations other, 2 ≤ declaration.children.length) →
      ((AliasTable.leadingDeclarations other).map Node.declaredName).Nodup →
      (ofProgram config other stem).result = (ofProgram config program stem).result := by
  refine ⟨fun _ => ofProgram_eq_error_iff, fun _ => ofProgram_eq_ok_iff,
    fun _ => isCName_of_ofProgram, fun _ _ hfirst hsecond hrules _ =>
      ofProgram_append hfirst hsecond hrules, fun other hrules hperm hset hdistinct => ?_⟩
  exact ofProgram_eq_of_alike hrules (AliasTable.foldlM_declare_perm hperm hset hdistinct)

namespace Twice

/-- A declaration of an alias. -/
def declaration (name : String) (instructions : List String) : Node :=
  .branch .declaration [.leaf .identifier name,
    .branch .instructionSet (instructions.map (.leaf .instruction))]

/-- An alias for two loads. -/
def load : Node := declaration "load" ["iload", "aload"]

/-- An alias for two stores. -/
def store : Node := declaration "store" ["istore", "astore"]

/-- A rule that drops an instruction of the given name. -/
def drop (name instruction : String) : Node :=
  .mk .rule name [.branch .pattern [.branch .unnamedElement [.leaf .instruction instruction]],
    .branch .replacement []]

/-- The file of some declarations and rules. -/
def tree (declarations rules : List Node) : Node := .branch .program (declarations ++ rules)

theorem isSome_ofProgram :
    (ofProgram .default (tree [load, store] [drop "p" "load", drop "q" "store"])
      "t").result.toOption.isSome = true := by
  decide +kernel

end Twice

/-- Two rules come out as one after the other, whichever of their aliases is declared first. -/
theorem ofProgram_rule_by_rule_twice : ∃ emission emission',
    (ofProgram .default (Twice.tree [Twice.load, Twice.store] [Twice.drop "p" "load"]) "t").result
        = .ok (assemble .default "t" emission) ∧
    (ofProgram .default (Twice.tree [Twice.load, Twice.store] [Twice.drop "q" "store"]) "t").result
        = .ok (assemble .default "t" emission') ∧
    (ofProgram .default (Twice.tree [Twice.store, Twice.load]
          [Twice.drop "p" "load", Twice.drop "q" "store"]) "t").result
        = .ok (assemble .default "t" (emission.append emission')) := by
  obtain ⟨-, -, -, happend, hperm⟩ := ofProgram_rule_by_rule .default
    (Twice.tree [Twice.load, Twice.store] [Twice.drop "p" "load", Twice.drop "q" "store"]) "t"
  obtain ⟨file, hfile⟩ := Option.isSome_iff_exists.1 Twice.isSome_ofProgram
  obtain ⟨emission, emission', hfirst, hsecond, rfl⟩ :=
    (happend (Twice.tree [Twice.load, Twice.store] [Twice.drop "p" "load"])
      (Twice.tree [Twice.load, Twice.store] [Twice.drop "q" "store"]) rfl rfl rfl file).1
      (eq_ok_of_toOption hfile)
  refine ⟨emission, emission', hfirst, hsecond, ?_⟩
  have hswapped := hperm (Twice.tree [Twice.store, Twice.load]
    [Twice.drop "p" "load", Twice.drop "q" "store"]) rfl (List.Perm.swap _ _ _) (by decide)
    (by decide)
  rw [hswapped]
  exact eq_ok_of_toOption hfile

end GeneratedFile

end Peephole

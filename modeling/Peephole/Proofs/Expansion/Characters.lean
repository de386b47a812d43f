import Peephole.Proofs.Expansion.RuleByRule
import Peephole.Proofs.Expansion.FunctionNames
import Peephole.Proofs.Expansion.WellScoped
import Peephole.Proofs.Files.Saving
import Peephole.Response

/-!
# Proofs/Expansion/Characters — the characters of generated code

Comments and stems may hold any character, generated code holds plain ones only: ASCII without NUL.
Every matcher reads as a C function, and the tokens of C leave no room for others
(`plainChar_of_lex`); the name of the registration function is made of the characters of words.  So
a C caller, to whom no text with a NUL can be handed, gets all code and all names.
-/

namespace Peephole

open C

/-! ## Plain texts -/

/-- A character of ASCII that is not NUL. -/
def PlainChar (c : Char) : Prop := 0 < c.toNat ∧ c.toNat < 128

instance (c : Char) : Decidable (PlainChar c) := inferInstanceAs (Decidable (_ ∧ _))

/-- A text of plain characters. -/
def IsPlain (text : String) : Prop := ∀ c ∈ text.toList, PlainChar c

instance (text : String) : Decidable (IsPlain text) :=
  decidable_of_iff (text.toList.all (fun c => decide (PlainChar c)) = true) (by simp [IsPlain])

section Plain

variable {first second : String}

theorem isPlain_append : IsPlain (first ++ second) ↔ IsPlain first ∧ IsPlain second := by
  simp only [IsPlain, String.toList_append, List.forall_mem_append]

theorem isPlain_join {texts : List String} (h : ∀ text ∈ texts, IsPlain text) :
    IsPlain (String.join texts) := by
  intro c hc
  rw [String.toList_join, List.mem_flatMap] at hc
  obtain ⟨text, htext, hc⟩ := hc
  exact h text htext c hc

/-- Letters, digits and underscores are plain. -/
theorem plainChar_of_isWordChar {c : Char} (h : isWordChar c = true) : PlainChar c := by
  obtain h | h := Bool.or_eq_true_iff.1 h
  · delta Char.isAlphanum Char.isAlpha Char.isUpper Char.isLower Char.isDigit at h
    simp only [Bool.or_eq_true, Bool.and_eq_true, decide_eq_true_eq, ge_iff_le,
      UInt32.le_iff_toNat_le] at h
    change (65 ≤ c.toNat ∧ c.toNat ≤ 90 ∨ 97 ≤ c.toNat ∧ c.toNat ≤ 122) ∨
      48 ≤ c.toNat ∧ c.toNat ≤ 57 at h
    rw [PlainChar]
    omega
  · rw [beq_iff_eq.1 h]
    decide

theorem plainChar_of_isBlank {c : Char} (h : isBlank c = true) : PlainChar c := by
  simp only [isBlank, Bool.or_eq_true, beq_iff_eq] at h
  obtain ((rfl | rfl) | rfl) | rfl := h <;> decide

end Plain

/-! ## Tokens -/

namespace C

theorem plainChar_of_singlePuncts {c : Char} {punct : Punct}
    (h : singlePuncts.lookup c = some punct) : PlainChar c := by
  obtain ⟨front, back, heq, -⟩ := List.lookup_eq_some_iff.1 h
  have htable : ∀ entry ∈ singlePuncts, PlainChar entry.1 := by decide
  exact htable (c, punct) (by simp [heq])

theorem plainChar_of_doublePuncts {c d : Char} {punct : Option Punct}
    (h : doublePuncts.lookup (c, d) = some punct) : PlainChar c ∧ PlainChar d := by
  obtain ⟨front, back, heq, -⟩ := List.lookup_eq_some_iff.1 h
  have htable : ∀ entry ∈ doublePuncts, PlainChar entry.1.1 ∧ PlainChar entry.1.2 := by decide
  exact htable ((c, d), punct) (by simp [heq])

/-- A punctuator is taken off the front of a text, and is plain. -/
theorem plainChar_of_scanPunct {text rest : List Char} {punct : Punct}
    (h : scanPunct text = some (punct, rest)) :
    ∃ front, text = front ++ rest ∧ ∀ c ∈ front, PlainChar c := by
  unfold scanPunct at h
  split at h
  case h_1 => simp at h
  case h_2 c =>
    obtain ⟨_, hlookup, h⟩ := Option.map_eq_some_iff.1 h
    obtain ⟨-, rfl⟩ := Prod.mk.inj h
    exact ⟨[c], rfl, by simpa using plainChar_of_singlePuncts hlookup⟩
  case h_3 c d text =>
    split at h
    case h_1 double hlookup =>
      obtain ⟨_, -, h⟩ := Option.map_eq_some_iff.1 h
      obtain ⟨-, rfl⟩ := Prod.mk.inj h
      exact ⟨[c, d], rfl, by simpa using plainChar_of_doublePuncts hlookup⟩
    case h_2 =>
      obtain ⟨_, hlookup, h⟩ := Option.map_eq_some_iff.1 h
      obtain ⟨-, rfl⟩ := Prod.mk.inj h
      exact ⟨[c], rfl, by simpa using plainChar_of_singlePuncts hlookup⟩

/-- **A text that has tokens is plain.** -/
theorem plainChar_of_lex {text : List Char} {tokens : List Token} (h : lex text = some tokens) :
    ∀ c ∈ text, PlainChar c := by
  fun_induction lex text generalizing tokens with
  | case1 => simp
  | case2 c rest hblank ih =>
    exact List.forall_mem_cons.2 ⟨plainChar_of_isBlank hblank, ih h⟩
  | case3 c rest hblank hword ih =>
    obtain ⟨more, hmore, -⟩ := Option.map_eq_some_iff.1 h
    refine List.forall_mem_cons.2 ⟨plainChar_of_isWordChar hword, ?_⟩
    rw [← List.takeWhile_append_dropWhile (l := rest) (p := isWordChar), List.forall_mem_append]
    exact ⟨fun d hd => plainChar_of_isWordChar (List.mem_takeWhile_imp hd), ih hmore⟩
  | case4 => cases h
  | case5 c rest hblank hword punct rest' hscan ih =>
    obtain ⟨more, hmore, -⟩ := Option.map_eq_some_iff.1 h
    obtain ⟨front, hfront, hplain⟩ := plainChar_of_scanPunct hscan
    rw [hfront, List.forall_mem_append]
    exact ⟨hplain, ih hmore⟩

end C

/-- A text that reads as a function of C is plain: the lexer takes no other characters. -/
theorem isPlain_of_readDefinition {text : String} {definition : Definition}
    (h : readDefinition text = some definition) : IsPlain text := by
  rw [readDefinition, Option.bind_eq_bind, Option.bind_eq_some_iff] at h
  obtain ⟨tokens, hlex, -⟩ := h
  exact plainChar_of_lex hlex

/-! ## Generated code -/

section Code

variable {config : Config} {source stem label : String} {tree rule : Node} {table : AliasTable}
  {file : GeneratedFile}

/-- What a rule of a pattern file emits is plain. -/
theorem isPlain_emittedAlone (hparse : parse source = .ok tree) (hrule : rule ∈ tree.rules)
    (htable : (AliasTable.build tree).result = .ok table) :
    IsPlain (emittedAlone table rule).text := by
  rw [emittedAlone, (emits_of_matchers rfl Emission.empty).2]
  refine isPlain_append.2 ⟨by decide, isPlain_join fun text htext => ?_⟩
  obtain ⟨matcher, hmatcher, rfl⟩ := List.mem_map.1 htext
  obtain ⟨_, _, _, _, _, _, _, -, -, -, hreads⟩ :=
    exists_readDefinition_of_mem hparse hrule htable hmatcher
  exact isPlain_of_readDefinition hreads

/-- Settings whose texts are plain. -/
structure Config.HasPlainTexts (config : Config) : Prop where
  preamble : IsPlain config.preamble
  registrar : IsPlain config.registrar
  initPrefix : IsPlain config.initPrefix

/-- The default settings are plain. -/
theorem Config.hasPlainTexts_default : Config.default.HasPlainTexts where
  preamble := by
    have hlines : ∀ line ∈ Config.helperLines, IsPlain line := by decide +kernel
    refine isPlain_join fun line hline => ?_
    obtain ⟨text, htext, rfl⟩ := List.mem_map.1 hline
    exact isPlain_append.2 ⟨hlines text htext, by decide⟩
  registrar := by decide
  initPrefix := by decide

/-- Whatever a stem holds, the name made of it is plain. -/
theorem isPlain_initFunctionName (h : config.HasPlainTexts) (stem : String) :
    IsPlain (GeneratedFile.initFunctionName config stem) := by
  refine isPlain_append.2 ⟨h.initPrefix, ?_⟩
  split
  case isTrue => decide
  case isFalse =>
    intro c hc
    rw [String.toList_ofList] at hc
    obtain ⟨d, -, rfl⟩ := List.mem_map.1 hc
    split
    case isTrue hword => exact plainChar_of_isWordChar hword
    case isFalse => decide

/-- A name in C is plain. -/
theorem isPlain_of_isCName {name : String} (h : GeneratedFile.IsCName name) : IsPlain name := by
  obtain ⟨first, more, hname, hfirst, hmore⟩ := h
  rw [IsPlain, hname, List.forall_mem_cons]
  refine ⟨plainChar_of_isWordChar ?_, fun c hc => plainChar_of_isWordChar ?_⟩
  · obtain halpha | rfl := hfirst
    · simp [isWordChar, Char.isAlphanum, halpha]
    · decide
  · simpa [isWordChar, Char.isAlphanum, or_assoc] using hmore c hc

/-- **Generated code is plain**, and so are the names of its functions. -/
theorem isPlain_of_compileText (hconfig : config.HasPlainTexts)
    (h : (compileText config source stem label).result = .ok file) :
    IsPlain file.code ∧ ∀ name ∈ file.functionNames, IsPlain name := by
  obtain ⟨tree, hparse, hfile⟩ := exists_of_compileText h
  have hnames : ∀ name ∈ file.functionNames, IsPlain name := fun name hname =>
    isPlain_of_isCName (GeneratedFile.isCName_of_ofProgram hfile name hname)
  obtain ⟨table, htable, -, rfl⟩ := GeneratedFile.ofProgram_eq_ok_iff.1 hfile
  refine ⟨?_, hnames⟩
  simp only [GeneratedFile.assemble, isPlain_append]
  refine ⟨⟨⟨hconfig.preamble, ?_⟩, isPlain_join fun text htext => ?_⟩,
    ⟨⟨⟨by decide, isPlain_initFunctionName hconfig stem⟩, by decide⟩,
      isPlain_join fun line hline => ?_⟩, by decide⟩
  · split <;> decide
  · obtain ⟨emission, hemission, rfl⟩ := List.mem_map.1 htext
    obtain ⟨rule, hrule, rfl⟩ := List.mem_map.1 hemission
    exact isPlain_emittedAlone hparse hrule htable
  · obtain ⟨name, hname, rfl⟩ := List.mem_map.1 hline
    simp only [isPlain_append]
    exact ⟨⟨⟨⟨by decide, hconfig.registrar⟩, by decide⟩, hnames name hname⟩, by decide⟩

end Code

/-! ## C strings -/

theorem toCString?_of_isPlain {text : String} (h : IsPlain text) : toCString? text = some text := by
  refine if_neg fun hnul => ?_
  exact absurd (h _ (List.contains_iff_mem.1 hnul)) (by decide)

theorem filterMap_toCString? {texts : List String} (h : ∀ text ∈ texts, IsPlain text) :
    texts.filterMap toCString? = texts := by
  rw [List.filterMap_congr fun text htext => toCString?_of_isPlain (h text htext),
    List.filterMap_some]

/-- A text can be handed over once its NULs are taken out. -/
theorem toCString?_filter (text : List Char) :
    toCString? (String.ofList (text.filter (· ≠ '\x00')))
      = some (String.ofList (text.filter (· ≠ '\x00'))) := by
  refine if_neg fun hnul => ?_
  simp at hnul

section Respond

variable (source stem : String) (workspace : Workspace)

/-- A file that compiles is answered with its code and its names, as far as C strings can hold
them. -/
theorem run_respond_of_ok {file : GeneratedFile}
    (h : (compileText .default source stem stem).result = .ok file) :
    ∃ events, (respond source stem : StateM Workspace _).run workspace
      = (⟨toCString? file.code, file.functionNames.filterMap toCString?, none⟩,
        { workspace with events }) := by
  rw [respond, StateT.run_bind, run_logged, h]
  exact ⟨_, rfl⟩

/-- A file that does not compile is answered with the message, without any NUL in it. -/
theorem run_respond_of_error {error : CompileError}
    (h : (compileText .default source stem stem).result = .error error) :
    ∃ events, (respond source stem : StateM Workspace _).run workspace
      = (⟨none, [], toCString? (String.ofList (error.message.toList.filter (· ≠ '\x00')))⟩,
        { workspace with events }) := by
  rw [respond, StateT.run_bind, run_logged, h]
  exact ⟨_, rfl⟩

end Respond

/-- **A C caller gets all there is.**  Either code or the text of an error is handed over, and never
both; code comes whole, with all names of its functions in order.  For what is compiled is plain,
whatever characters stand in comments or in the stem. -/
theorem respond_drops_nothing (source stem : String) (workspace : Workspace) :
    ∃ response events, (respond source stem : StateM Workspace _).run workspace
        = (response, { workspace with events }) ∧
      response.codeText.isSome ≠ response.errorText.isSome ∧
      (∀ file, (compileText .default source stem stem).result = .ok file →
        response = ⟨some file.code, file.functionNames, none⟩) ∧
      (∀ error, (compileText .default source stem stem).result = .error error →
        response
          = ⟨none, [], some (String.ofList (error.message.toList.filter (· ≠ '\x00')))⟩) ∧
      ∀ label file, (compileText .default source stem label).result = .ok file →
        IsPlain file.code ∧ ∀ name ∈ file.functionNames, IsPlain name := by
  have hplain : ∀ label file, (compileText .default source stem label).result = .ok file →
      IsPlain file.code ∧ ∀ name ∈ file.functionNames, IsPlain name := fun label file hfile =>
    isPlain_of_compileText Config.hasPlainTexts_default hfile
  cases hresult : (compileText .default source stem stem).result with
  | ok file =>
    obtain ⟨hcode, hnames⟩ := hplain stem file hresult
    obtain ⟨events, hrun⟩ := run_respond_of_ok source stem workspace hresult
    rw [toCString?_of_isPlain hcode, filterMap_toCString? hnames] at hrun
    refine ⟨_, events, hrun, by simp, ?_, ?_, hplain⟩
    · rintro file' hfile
      rw [Except.ok.inj hfile]
    · rintro error herror
      cases herror
  | error error =>
    obtain ⟨events, hrun⟩ := run_respond_of_error source stem workspace hresult
    rw [toCString?_filter] at hrun
    refine ⟨_, events, hrun, by simp, ?_, ?_, hplain⟩
    · rintro file hfile
      cases hfile
    · rintro error' herror
      rw [Except.error.inj herror]

namespace Accented

/-- A file with a comment that is not plain. -/
def source : String := "/* é */ pattern p: nop --> \x7b \x7d"

/-- A stem that is not plain and holds a NUL. -/
def stem : String := "é\x00"

/-- An empty working directory. -/
def workspace : Workspace := .ofFiles (.ofWorkingDirectory ["w"])

theorem isSome_compileText :
    (compileText .default source stem stem).result.toOption.isSome = true := by
  decide +kernel

end Accented

/-- A stem that is not plain leaves the code plain. -/
theorem respond_drops_nothing_accented :
    ∃ response events file, (respond Accented.source Accented.stem : StateM Workspace _).run
        Accented.workspace = (response, { Accented.workspace with events }) ∧
      (compileText .default Accented.source Accented.stem Accented.stem).result = .ok file ∧
      response = ⟨some file.code, file.functionNames, none⟩ ∧ IsPlain file.code := by
  obtain ⟨response, events, hrun, -, hcode, -, hplain⟩ :=
    respond_drops_nothing Accented.source Accented.stem Accented.workspace
  cases hresult : (compileText .default Accented.source Accented.stem Accented.stem).result with
  | error error =>
    have hsome := Accented.isSome_compileText
    rw [hresult] at hsome
    cases hsome
  | ok file =>
    exact ⟨response, events, file, hrun, rfl, hcode file hresult, (hplain _ file hresult).1⟩

end Peephole

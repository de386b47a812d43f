import Mathlib.Data.List.Nodup
import Peephole.Proofs.Binding.Tables

/-!
# Proofs/Binding/Build — which trees have a table, and what stands in it

The declarations that a program opens with are taken in one by one, whatever trees they are.  They
make a table exactly if each has a name and a set and no two have the same name (`Declarable`), and
the table then lists the instructions of every set once, in the order of their first occurrences.
Otherwise the first declaration that lacks something or repeats a name decides the fault
(`DeclarationFault`).
-/

namespace Peephole

/-! ## First occurrences -/

/-- What is kept of a list is what the library keeps when it erases duplicates. -/
theorem firstOccurrences_eq_eraseDups_filter (seen items : List String) :
    firstOccurrences seen items = (items.filter (· ∉ seen)).eraseDups := by
  fun_induction firstOccurrences seen items with
  | case1 => rfl
  | case2 seen item items hseen ih => rw [ih, List.filter_cons_of_neg (by simpa using hseen)]
  | case3 seen item items hnew ih =>
    have hrest : items.filter (· ∉ item :: seen)
        = (items.filter (· ∉ seen)).filter fun other => !other == item := by
      rw [List.filter_filter]
      refine List.filter_congr fun other _ => ?_
      simp [beq_eq_decide]
    rw [ih, List.filter_cons_of_pos (by simpa using hnew), List.eraseDups_cons, hrest]

theorem firstOccurrences_nil_eq_eraseDups (items : List String) :
    firstOccurrences [] items = items.eraseDups := by
  rw [firstOccurrences_eq_eraseDups_filter, List.filter_eq_self.2 (by simp)]

/-! ## Declarations that make a table -/

/-- Each declaration has a name and a set, and the names differ. -/
structure Declarable (declarations : List Node) : Prop where
  complete : ∀ d ∈ declarations, 2 ≤ d.children.length
  distinct : (declarations.map Node.declaredName).Nodup

/-- **What is wrong with a declaration** that stands behind others: it has no name, no set, or the
name of one of them. -/
inductive DeclarationFault (earlier : List Node) : Node → Fault → Prop where
  | nameless {d : Node} (h : d.children = []) :
    DeclarationFault earlier d (.malformed .declaration .missingDeclaredName)
  | setless {d name : Node} (h : d.children = [name]) :
    DeclarationFault earlier d (.malformed .declaration .missingInstructionSet)
  | repeated {d : Node} (hset : 2 ≤ d.children.length)
    (h : d.declaredName ∈ earlier.map Node.declaredName) :
    DeclarationFault earlier d (.duplicateDeclaration d.declaredName)

/-- One more declaration is fine if it has a name and a set, and no earlier one has its name. -/
theorem Declarable.concat {declarations : List Node} {d : Node} :
    Declarable (declarations ++ [d]) ↔
      Declarable declarations ∧ 2 ≤ d.children.length ∧
        d.declaredName ∉ declarations.map Node.declaredName := by
  have hnodup : ((declarations ++ [d]).map Node.declaredName).Nodup ↔
      d.declaredName ∉ declarations.map Node.declaredName ∧
        (declarations.map Node.declaredName).Nodup := by
    rw [List.map_append, List.map_singleton, List.nodup_middle, List.append_nil, List.nodup_cons]
  constructor
  · rintro ⟨hcomplete, hdistinct⟩
    rw [List.forall_mem_append, List.forall_mem_singleton] at hcomplete
    rw [hnodup] at hdistinct
    exact ⟨⟨hcomplete.1, hdistinct.2⟩, hcomplete.2, hdistinct.1⟩
  · rintro ⟨⟨hcomplete, hdistinct⟩, hset, hnew⟩
    refine ⟨?_, hnodup.2 ⟨hnew, hdistinct⟩⟩
    rw [List.forall_mem_append, List.forall_mem_singleton]
    exact ⟨hcomplete, hset⟩

namespace AliasTable

variable {declarations : List Node} {table : AliasTable} {fault : Fault}

/-- **Which declarations make a table**, and which names it knows. -/
theorem foldlM_declare_eq_ok (h : (declarations.foldlM declare empty).result = .ok table) :
    Declarable declarations ∧
      ∀ name, table.contains name = true ↔ name ∈ declarations.map Node.declaredName := by
  induction declarations using List.reverseRecOn generalizing table with
  | nil =>
    obtain rfl := Except.ok.inj h
    exact ⟨⟨by simp, List.nodup_nil⟩, fun name => by simp [contains, get?, empty]⟩
  | append_singleton declarations d ih =>
    rw [foldlM_declare_concat] at h
    obtain ⟨before, hbefore, hlast⟩ := bind_eq_ok_iff.1 h
    obtain ⟨hset, hnew, rfl⟩ := declare_eq_ok_iff.1 hlast
    obtain ⟨hdeclarable, hknown⟩ := ih hbefore
    refine ⟨Declarable.concat.2 ⟨hdeclarable, hset, fun hmem => ?_⟩, fun name => ?_⟩
    · rw [(hknown _).2 hmem] at hnew
      cases hnew
    · rw [contains_insert, Bool.or_eq_true, decide_eq_true_iff, hknown, List.map_append,
        List.mem_append, List.map_singleton, List.mem_singleton, or_comm]

/-- Fine declarations build a table, which holds each of their sets under its name and nothing
else. -/
theorem exists_table_of_declarable (h : Declarable declarations) :
    ∃ table, (declarations.foldlM declare empty).result = .ok table ∧
      ∀ name set, table.get? name = some set ↔
        ∃ d ∈ declarations, d.declaredName = name ∧ d.listing = set := by
  have hnew (d : Node) : empty.contains d.declaredName = false := rfl
  obtain ⟨table, htable, hget⟩ :=
    exists_foldlM_declare h.complete h.distinct fun d _ => hnew d
  refine ⟨table, htable, fun name set => (hget name set).trans (or_iff_right ?_)⟩
  simp [get?, empty]

/-- **One declaration fails** for want of a name or a set, or because its name is known. -/
theorem declare_eq_error_iff {d : Node}
    (hknown : ∀ name, table.contains name = true ↔ name ∈ declarations.map Node.declaredName) :
    (table.declare d).result = .error fault ↔ DeclarationFault declarations d fault := by
  obtain ⟨kind, text, children⟩ := d
  match children with
  | [] =>
    refine ⟨fun h => Except.error.inj h ▸ .nameless rfl, fun h => ?_⟩
    cases h with
    | nameless => rfl
    | setless h => cases h
    | repeated hset => cases hset
  | [name] =>
    refine ⟨fun h => Except.error.inj h ▸ .setless rfl, fun h => ?_⟩
    cases h with
    | nameless h => cases h
    | setless => rfl
    | repeated hset => exact absurd hset (by simp)
  | name :: set :: rest =>
    have hname : (Node.mk kind text (name :: set :: rest)).declaredName = name.text := rfl
    have hresult : (table.declare (.mk kind text (name :: set :: rest))).result
        = if table.contains name.text = true then .error (.duplicateDeclaration name.text)
          else .ok (table.insert name.text set.childTexts) :=
      apply_ite Logged.result _ _ _
    rw [hresult]
    constructor
    · intro h
      split at h
      case isTrue hmem =>
        exact Except.error.inj h ▸ .repeated (by simp) ((hknown _).1 hmem)
      case isFalse => cases h
    · rintro (h | h | ⟨-, hmem⟩)
      · cases h
      · cases h
      · rw [hname] at hmem ⊢
        rw [if_pos ((hknown _).2 hmem)]

/-- **The first declaration at fault decides.** -/
theorem foldlM_declare_eq_error_iff :
    (declarations.foldlM declare empty).result = .error fault ↔
      ∃ before d after, declarations = before ++ d :: after ∧ Declarable before ∧
        DeclarationFault before d fault := by
  -- Declarations are taken in from the left, so the induction takes them off at the end.
  induction declarations using List.reverseRecOn with
  | nil => simp [pure]
  | append_singleton declarations last ih =>
    rw [foldlM_declare_concat, bind_eq_error_iff, ih]
    constructor
    · rintro (⟨before, d, after, rfl, hbefore, hfault⟩ | ⟨table, htable, hlast⟩)
      · exact ⟨before, d, after ++ [last], by simp, hbefore, hfault⟩
      · obtain ⟨hdeclarable, hknown⟩ := foldlM_declare_eq_ok htable
        exact ⟨declarations, last, [], rfl, hdeclarable, (declare_eq_error_iff hknown).1 hlast⟩
    · rintro ⟨before, d, after, heq, hbefore, hfault⟩
      rcases List.eq_nil_or_concat' after with rfl | ⟨after, final, rfl⟩
      · obtain ⟨rfl, hd⟩ := List.append_inj' heq rfl
        obtain rfl := List.singleton_inj.1 hd
        obtain ⟨table, htable, -⟩ := exists_table_of_declarable hbefore
        have hknown := (foldlM_declare_eq_ok htable).2
        exact .inr ⟨table, htable, (declare_eq_error_iff hknown).2 hfault⟩
      · refine .inl ⟨before, d, after, ?_, hbefore, hfault⟩
        rw [← List.cons_append, ← List.append_assoc] at heq
        exact (List.append_inj' heq rfl).1

/-- The leading declarations are all up to the first child that is none. -/
theorem exists_leadingDeclarations_append (program : Node) :
    ∃ rest, program.children = leadingDeclarations program ++ rest ∧
      (∀ d ∈ leadingDeclarations program, d.kind = .declaration) ∧
      ∀ next ∈ rest.head?, next.kind ≠ .declaration := by
  refine ⟨program.children.dropWhile (·.kind = .declaration),
    List.takeWhile_append_dropWhile.symm, fun d hd => ?_, fun next hnext => ?_⟩
  · simpa using List.mem_takeWhile_imp hd
  · have hhead := List.head?_dropWhile_not (·.kind = .declaration) program.children
    rw [Option.mem_def.1 hnext] at hhead
    simpa using hhead

/-- A table that declarations make lists the instructions of each, without repetitions. -/
theorem get?_of_mem {d : Node} (h : (declarations.foldlM declare empty).result = .ok table)
    (hmem : d ∈ declarations) :
    ∃ name set more instructions, d.children = name :: set :: more ∧
      table.get? name.text = some instructions ∧ instructions = set.childTexts.eraseDups ∧
      instructions.Nodup ∧ ∀ text, text ∈ instructions ↔ text ∈ set.childTexts := by
  have hdeclarable := (foldlM_declare_eq_ok h).1
  obtain ⟨table', htable', hget⟩ := exists_table_of_declarable hdeclarable
  obtain rfl := Except.ok.inj (htable'.symm.trans h)
  have hlisted := (hget d.declaredName d.listing).2 ⟨d, hmem, rfl, rfl⟩
  have hcomplete := hdeclarable.complete d hmem
  obtain ⟨kind, text, children⟩ := d
  match children with
  | name :: set :: rest =>
    refine ⟨name, set, rest, _, rfl, hlisted, firstOccurrences_nil_eq_eraseDups _,
      nodup_firstOccurrences _ _, fun text => ?_⟩
    exact mem_firstOccurrences.trans (and_iff_left List.not_mem_nil)

/-- **Which table a program has.**  Its leading declarations decide, whatever trees they are.  They
make a table exactly if each has a name and a set and the names differ.  It knows these names, and
each stands for the instructions of its set without repetitions.  Otherwise the fault is that of the
first declaration that lacks a name or a set or repeats a name. -/
theorem build_by_leading_declarations (program : Node) :
    ∃ leading rest, program.children = leading ++ rest ∧
      (∀ d ∈ leading, d.kind = .declaration) ∧ (∀ next ∈ rest.head?, next.kind ≠ .declaration) ∧
      ((∃ table, (build program).result = .ok table) ↔ Declarable leading) ∧
      (∀ table, (build program).result = .ok table →
        (∀ name, table.contains name = true ↔ name ∈ leading.map Node.declaredName) ∧
        ∀ d ∈ leading, ∃ name set more instructions, d.children = name :: set :: more ∧
          table.get? name.text = some instructions ∧ instructions = set.childTexts.eraseDups ∧
          instructions.Nodup ∧ ∀ text, text ∈ instructions ↔ text ∈ set.childTexts) ∧
      ∀ fault, (build program).result = .error fault ↔
        ∃ before d after, leading = before ++ d :: after ∧ Declarable before ∧
          DeclarationFault before d fault := by
  obtain ⟨rest, hchildren, hleading, hrest⟩ := exists_leadingDeclarations_append program
  refine ⟨leadingDeclarations program, rest, hchildren, hleading, hrest, ⟨?_, ?_⟩, ?_, ?_⟩
  · rintro ⟨table, htable⟩
    exact (foldlM_declare_eq_ok htable).1
  · intro hdeclarable
    obtain ⟨table, htable, -⟩ := exists_table_of_declarable hdeclarable
    exact ⟨table, htable⟩
  · intro table htable
    exact ⟨(foldlM_declare_eq_ok htable).2, fun d hmem => get?_of_mem htable hmem⟩
  · exact fun fault => foldlM_declare_eq_error_iff

end AliasTable

end Peephole

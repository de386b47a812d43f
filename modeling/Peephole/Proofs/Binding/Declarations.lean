import Mathlib.Data.List.Nodup
import Peephole.Alias
import Peephole.Proofs.Grammar.TreeLanguage

/-!
# Proofs/Binding/Declarations — which aliases a file declares

The table of a file is filled declaration by declaration, and the only thing that can go wrong is a
name that was declared before (`declares_of_foldlM`, `duplicate_of_foldlM`).  So a file has a table
exactly if its names are distinct, and the table knows those names and no others.
-/

namespace Peephole

namespace Node

/-- The declarations of a pattern file, in source order. -/
def declarations (program : Node) : List Node := program.children.filter (·.kind = .declaration)

/-- The name that a declaration declares. -/
def declaredName (declaration : Node) : String := (declaration.child? 0).elim "" text

/-- The aliases that a pattern file declares, each as often as it does. -/
def declaredNames (program : Node) : List String := program.declarations.map declaredName

end Node

/-- The declarations of a program are declarations of the grammar. -/
theorem isDeclaration_of_mem_declarations {program declaration : Node} (h : IsProgram program)
    (hmem : declaration ∈ program.declarations) : IsDeclaration declaration := by
  obtain ⟨hdeclarations, hrules⟩ := h
  obtain ⟨hmem, hkind⟩ := List.mem_filter.1 hmem
  rcases List.mem_append.1 hmem with hmem | hmem
  · exact hdeclarations declaration hmem
  · obtain ⟨-, -, -, -⟩ := hrules declaration hmem
    simp at hkind

/-- In a pattern file all declarations stand before the first rule. -/
theorem leadingDeclarations_eq {program : Node} (h : IsProgram program) :
    AliasTable.leadingDeclarations program = program.declarations := by
  obtain @⟨declarations, rules, hdeclarations, hrules⟩ := h
  have hkinds : ∀ declaration ∈ declarations, decide (declaration.kind = .declaration) = true := by
    intro declaration hmem
    obtain ⟨-, -⟩ := hdeclarations declaration hmem
    rfl
  have hothers : ∀ rule ∈ rules, decide (rule.kind = .declaration) = false := by
    intro rule hmem
    obtain ⟨-, -, -, -⟩ := hrules rule hmem
    rfl
  have hnone : rules.takeWhile (fun node => decide (node.kind = .declaration)) = [] := by
    cases rules with
    | nil => rfl
    | cons rule rules => rw [List.takeWhile_cons, hothers rule List.mem_cons_self]; rfl
  rw [AliasTable.leadingDeclarations, Node.declarations, Node.children_mk,
    List.takeWhile_append_of_pos hkinds, hnone, List.filter_append, List.filter_eq_self.2 hkinds,
    List.filter_eq_nil_iff.2 fun rule hmem => by rw [hothers rule hmem]; exact Bool.false_ne_true]

namespace AliasTable

/-- A declaration is refused only if its name is taken, and enters the table otherwise. -/
theorem result_declare {declaration : Node} (h : IsDeclaration declaration) (table : AliasTable) :
    ∃ instructions, (table.declare declaration).result
      = if table.contains declaration.declaredName then
          .error (.duplicateDeclaration declaration.declaredName)
        else .ok (table.insert declaration.declaredName instructions) := by
  obtain @⟨name, set, -, -⟩ := h
  refine ⟨set.childTexts, ?_⟩
  rw [declare]
  exact apply_ite Logged.result _ _ _

/-- **The names a table knows after declarations.** -/
theorem declares_of_foldlM {declarations : List Node}
    (h : ∀ declaration ∈ declarations, IsDeclaration declaration) {before after : AliasTable}
    (hresult : (declarations.foldlM declare before).result = .ok after) (name : String) :
    after.contains name = true ↔
      before.contains name = true ∨ name ∈ declarations.map Node.declaredName := by
  induction declarations generalizing before with
  | nil =>
    obtain rfl := Except.ok.inj hresult
    simp
  | cons declaration declarations ih =>
    rw [List.forall_mem_cons] at h
    rw [List.foldlM_cons, Logged.result_bind] at hresult
    obtain ⟨next, hnext, hmore⟩ := bind_eq_ok_iff.1 hresult
    obtain ⟨instructions, hdeclare⟩ := result_declare h.1 before
    rw [hdeclare] at hnext
    split at hnext
    case isTrue => cases hnext
    case isFalse =>
      obtain rfl := Except.ok.inj hnext
      rw [ih h.2 hmore, contains_insert, Bool.or_eq_true, decide_eq_true_iff, List.map_cons,
        List.mem_cons, or_assoc, or_left_comm]

/-- **A declaration fails on a name that was declared before it, and for no other reason.** -/
theorem duplicate_of_foldlM {declarations : List Node}
    (h : ∀ declaration ∈ declarations, IsDeclaration declaration) {before : AliasTable}
    {fault : Fault} (hresult : (declarations.foldlM declare before).result = .error fault) :
    ∃ name, fault = .duplicateDeclaration name ∧
      (before.contains name = true ∧ name ∈ declarations.map Node.declaredName ∨
        2 ≤ (declarations.map Node.declaredName).count name) := by
  induction declarations generalizing before with
  | nil => cases hresult
  | cons declaration declarations ih =>
    rw [List.forall_mem_cons] at h
    rw [List.foldlM_cons, Logged.result_bind] at hresult
    obtain ⟨instructions, hdeclare⟩ := result_declare h.1 before
    rw [hdeclare] at hresult
    split at hresult
    case isTrue hknown =>
      exact ⟨_, (Except.error.inj hresult).symm, .inl ⟨hknown, List.mem_cons_self⟩⟩
    case isFalse hnew =>
      obtain ⟨name, rfl, hname⟩ := ih h.2 hresult
      refine ⟨name, rfl, ?_⟩
      rw [List.map_cons, List.count_cons]
      rcases hname with ⟨hknown, hmem⟩ | htwice
      · rw [contains_insert, Bool.or_eq_true, decide_eq_true_iff] at hknown
        rcases hknown with rfl | hknown
        · have hpos := List.count_pos_iff.2 hmem
          exact .inr (by simpa using hpos)
        · exact .inl ⟨hknown, List.mem_cons_of_mem _ hmem⟩
      · exact .inr (Nat.le_trans htwice (Nat.le_add_right _ _))

variable {program : Node}

/-- A name is in the table if and only if the program declares it. -/
theorem contains_of_build (hprogram : IsProgram program) {table : AliasTable}
    (h : (build program).result = .ok table) (name : String) :
    table.contains name = true ↔ name ∈ program.declaredNames := by
  rw [build, leadingDeclarations_eq hprogram] at h
  rw [declares_of_foldlM (fun _ hmem => isDeclaration_of_mem_declarations hprogram hmem) h name]
  refine ⟨fun hname => hname.resolve_left ?_, .inr⟩
  simp [contains, get?, empty]

/-- The only fault of building a table is a name that is declared twice. -/
theorem duplicate_of_build (hprogram : IsProgram program) {fault : Fault}
    (h : (build program).result = .error fault) :
    ∃ name, fault = .duplicateDeclaration name ∧ 2 ≤ program.declaredNames.count name := by
  rw [build, leadingDeclarations_eq hprogram] at h
  obtain ⟨name, rfl, ⟨hknown, -⟩ | htwice⟩ :=
    duplicate_of_foldlM (fun _ hmem => isDeclaration_of_mem_declarations hprogram hmem) h
  · simp [contains, get?, empty] at hknown
  · exact ⟨name, rfl, htwice⟩

/-- **A file whose aliases are distinct has a table.** -/
theorem exists_build (hprogram : IsProgram program) (h : program.declaredNames.Nodup) :
    ∃ table, (build program).result = .ok table := by
  cases hresult : (build program).result with
  | ok table => exact ⟨table, rfl⟩
  | error fault =>
    obtain ⟨name, -, htwice⟩ := duplicate_of_build hprogram hresult
    exact absurd (List.nodup_iff_count_le_one.1 h name) (by omega)

end AliasTable

end Peephole

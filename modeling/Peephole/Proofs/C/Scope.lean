import Peephole.Proofs.C.Syntax
import Peephole.Proofs.Names

/-!
# Proofs/C/Scope — declarations and uses of locals

A declaration is seen by the statements behind it in its block, and by the blocks inside those.
`Scoped known stmts` says that statements use only names that are known before them or declared in
that way, and `declared stmts` lists the declarations of all blocks in the order of the text.
-/

namespace Peephole.C

/-! ## Names -/

mutual

/-- The names that an expression reads or takes the address of.  The name of a function that it
calls is none of them. -/
def Term.names : Term → List String
  | .number _ => []
  | .name text => [text]
  | .unary _ operand => operand.names
  | .binary _ lhs rhs => lhs.names ++ rhs.names
  | .call _ arguments => Term.namesAll arguments

/-- The names in some expressions. -/
def Term.namesAll : List Term → List String
  | [] => []
  | value :: values => value.names ++ Term.namesAll values

end

theorem Term.namesAll_append (values more : List Term) :
    Term.namesAll (values ++ more) = Term.namesAll values ++ Term.namesAll more := by
  induction values with
  | nil => rfl
  | cons value values ih => simp [Term.namesAll, ih]

/-- What a statement declares for the statements behind it. -/
def Stmt.introduced : Stmt → List String
  | .declareCode name _ => [name]
  | .declareInt name => [name]
  | .setField _ _ _ => []
  | .ret _ => []
  | .branch _ _ _ => []

mutual

/-- What a statement declares, in its own block or in one inside it. -/
def Stmt.declared : Stmt → List String
  | .declareCode name _ => [name]
  | .declareInt name => [name]
  | .setField _ _ _ => []
  | .ret _ => []
  | .branch _ yes no => declared yes ++ declared no

/-- The declarations of a block and of those inside it, in the order of the text. -/
def declared : List Stmt → List String
  | [] => []
  | stmt :: stmts => stmt.declared ++ declared stmts

end

theorem declared_append (stmts more : List Stmt) :
    declared (stmts ++ more) = declared stmts ++ declared more := by
  induction stmts with
  | nil => rfl
  | cons stmt stmts ih => simp [declared, ih]

/-! ## Scopes -/

mutual

/-- A statement uses known names only. -/
def Stmt.Scoped : List String → Stmt → Prop
  | known, .declareCode _ value => ∀ name ∈ value.names, name ∈ known
  | _, .declareInt _ => True
  | known, .setField name _ value => name ∈ known ∧ ∀ name ∈ value.names, name ∈ known
  | known, .ret value => ∀ name ∈ value.names, name ∈ known
  | known, .branch condition yes no =>
    (∀ name ∈ condition.names, name ∈ known) ∧ Scoped known yes ∧ Scoped known no

/-- **Every use of a name is preceded by its declaration**, in the block of the use or in one
around it, unless the name is known from the start. -/
def Scoped : List String → List Stmt → Prop
  | _, [] => True
  | known, stmt :: stmts => Stmt.Scoped known stmt ∧ Scoped (known ++ stmt.introduced) stmts

end

/-- Statements behind others may use what those introduce. -/
theorem scoped_append {known : List String} {stmts more : List Stmt} :
    Scoped known (stmts ++ more) ↔
      Scoped known stmts ∧ Scoped (known ++ stmts.flatMap Stmt.introduced) more := by
  induction stmts generalizing known with
  | nil => simp [Scoped]
  | cons stmt stmts ih => simp [Scoped, ih, and_assoc]

mutual

/-- A statement stays in scope where more is known. -/
theorem Stmt.Scoped.mono {known wider : List String} (h : known ⊆ wider) :
    ∀ {stmt : Stmt}, Stmt.Scoped known stmt → Stmt.Scoped wider stmt
  | .declareCode _ _, hs => fun name hname => h (hs name hname)
  | .declareInt _, _ => trivial
  | .setField _ _ _, hs => ⟨h hs.1, fun name hname => h (hs.2 name hname)⟩
  | .ret _, hs => fun name hname => h (hs name hname)
  | .branch _ _ _, hs =>
    ⟨fun name hname => h (hs.1 name hname), Scoped.mono h hs.2.1, Scoped.mono h hs.2.2⟩

/-- More may be known. -/
theorem Scoped.mono {known wider : List String} (h : known ⊆ wider) :
    ∀ {stmts : List Stmt}, Scoped known stmts → Scoped wider stmts
  | [], _ => trivial
  | _ :: _, hs => ⟨hs.1.mono h, hs.2.mono (List.append_subset.2
      ⟨List.subset_append_of_subset_left _ h, List.subset_append_right _ _⟩)⟩

end

/-- Statements that need nothing of each other. -/
theorem scoped_of_forall {known : List String} {stmts : List Stmt}
    (h : ∀ stmt ∈ stmts, Stmt.Scoped known stmt) : Scoped known stmts := by
  induction stmts generalizing known with
  | nil => trivial
  | cons stmt stmts ih =>
    rw [List.forall_mem_cons] at h
    exact ⟨h.1, ih fun other hother => (h.2 other hother).mono (List.subset_append_left _ _)⟩

/-! ## Well-scoped functions -/

/-- **A function whose locals are in order.**  Its parameter and `NULL` are known from the start. -/
structure Definition.WellScoped (definition : Definition) : Prop where
  /-- Every local is declared once, whatever the blocks. -/
  nodup : (declared definition.body).Nodup
  /-- Every name that is used has been declared. -/
  uses : Scoped [definition.parameter, "NULL"] definition.body
  /-- Nodes are numbered `1, 2, …` in the order of the text, behind the cursors and arguments. -/
  numbered : ∃ locals count,
    declared definition.body = locals ++ (List.range' 1 count).map nodeLocal ∧
      ∀ name ∈ locals, (∃ text, name = cursorLocal text) ∨ ∃ text, name = argumentLocal text

end Peephole.C

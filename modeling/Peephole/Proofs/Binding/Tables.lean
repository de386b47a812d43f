import Mathlib.Data.List.Nodup
import Peephole.Proofs.Binding.Hygiene
import Peephole.Proofs.Outcomes

/-!
# Proofs/Binding/Tables — what a table knows, whatever the order of its declarations

A declaration adds one alias, whatever tree it is (`declare_eq_ok_iff`).  Declarations with a name
and a set each, all of different names, make a table that knows them and nothing else
(`exists_foldlM_declare`), so their order makes no difference to what is looked up.

Resolution looks up names and nothing else: under tables that know the same, a rule has the same
bindings (`resolve_alike`).
-/

namespace Peephole

/-- The instructions that a declaration lists, each once. -/
def Node.listing (declaration : Node) : List String :=
  firstOccurrences [] ((declaration.child? 1).elim [] Node.childTexts)

namespace AliasTable

variable {table other final : AliasTable} {declaration : Node} {declarations : List Node}

/-! ## Declarations -/

/-- **One declaration**: it has a name and a set, and the name is new. -/
theorem declare_eq_ok_iff :
    (table.declare declaration).result = .ok final ↔
      2 ≤ declaration.children.length ∧ table.contains declaration.declaredName = false ∧
        final = table.insert declaration.declaredName
          ((declaration.child? 1).elim [] Node.childTexts) := by
  obtain ⟨kind, text, children⟩ := declaration
  match children with
  | [] => simp [declare, Logged.result_ofExcept]
  | [_] => simp [declare, Logged.result_ofExcept]
  | name :: set :: rest =>
    have hname : (Node.mk kind text (name :: set :: rest)).declaredName = name.text := rfl
    rw [declare, hname]
    dsimp only [Node.children_mk]
    cases table.contains name.text with
    | true => simp
    | false =>
      rw [if_neg Bool.false_ne_true]
      refine ⟨fun h => ⟨by simp, rfl, (Except.ok.inj h).symm⟩, ?_⟩
      rintro ⟨-, -, rfl⟩
      rfl

/-- A declaration enters the table with its listing, and leaves the other names alone. -/
theorem get?_insert_listing (name : String) :
    (table.insert declaration.declaredName
      ((declaration.child? 1).elim [] Node.childTexts)).get? name
      = if name = declaration.declaredName then some declaration.listing else table.get? name :=
  get?_insert ..

/-- Declarations are entered one after the other, the last one at the end. -/
theorem foldlM_declare_concat :
    ((declarations ++ [declaration]).foldlM declare table).result
      = (declarations.foldlM declare table).result >>= fun next =>
        (next.declare declaration).result := by
  induction declarations generalizing table with
  | nil =>
    rw [List.nil_append, List.foldlM_cons, Logged.result_bind]
    exact bind_pure _
  | cons first declarations ih =>
    rw [List.cons_append, List.foldlM_cons, List.foldlM_cons, Logged.result_bind,
      Logged.result_bind, bind_assoc]
    simp only [ih]

/-- A table knows the names declared and those it knew. -/
theorem declaredName_of_foldlM (h : (declarations.foldlM declare table).result = .ok final)
    {name : String} (hname : final.contains name = true) :
    table.contains name = true ∨ name ∈ declarations.map Node.declaredName := by
  induction declarations generalizing table with
  | nil =>
    obtain rfl := Except.ok.inj h
    exact .inl hname
  | cons declaration declarations ih =>
    rw [List.foldlM_cons, Logged.result_bind] at h
    obtain ⟨next, hnext, hmore⟩ := bind_eq_ok_iff.1 h
    obtain ⟨-, -, rfl⟩ := declare_eq_ok_iff.1 hnext
    rw [List.map_cons, List.mem_cons]
    rcases ih hmore with hknown | hmem
    · rw [contains_insert, Bool.or_eq_true, decide_eq_true_iff] at hknown
      exact hknown.elim (.inr ∘ .inl) .inl
    · exact .inr (.inr hmem)

/-- **Declarations of different new names make a table that knows them**, besides what was known. -/
theorem exists_foldlM_declare (hset : ∀ d ∈ declarations, 2 ≤ d.children.length)
    (hdistinct : (declarations.map Node.declaredName).Nodup)
    (hnew : ∀ d ∈ declarations, table.contains d.declaredName = false) :
    ∃ final, (declarations.foldlM declare table).result = .ok final ∧
      ∀ name set, final.get? name = some set ↔
        table.get? name = some set ∨
          ∃ d ∈ declarations, d.declaredName = name ∧ d.listing = set := by
  induction declarations generalizing table with
  | nil => exact ⟨table, rfl, by simp⟩
  | cons declaration declarations ih =>
    rw [List.forall_mem_cons] at hset hnew
    rw [List.map_cons, List.nodup_cons] at hdistinct
    obtain ⟨final, hfinal, hget⟩ := @ih
      (table.insert declaration.declaredName ((declaration.child? 1).elim [] Node.childTexts))
      hset.2 hdistinct.2 fun d hd => by
        have hne : d.declaredName ≠ declaration.declaredName := fun heq =>
          hdistinct.1 (heq ▸ List.mem_map_of_mem hd)
        rw [contains_insert, decide_eq_false hne, Bool.false_or, hnew.2 d hd]
    refine ⟨final, ?_, fun name set => ?_⟩
    · rw [List.foldlM_cons, Logged.result_bind]
      exact bind_eq_ok_iff.2 ⟨_, declare_eq_ok_iff.2 ⟨hset.1, hnew.1, rfl⟩, hfinal⟩
    · rw [hget, get?_insert_listing]
      simp only [List.mem_cons, exists_eq_or_imp]
      by_cases hname : name = declaration.declaredName
      · subst hname
        have hnone : table.get? declaration.declaredName = none := by
          simpa [contains] using hnew.1
        simp [hnone]
      · rw [if_neg hname]
        simp [Ne.symm hname]

/-- Two tables know the same aliases. -/
def Alike (table other : AliasTable) : Prop := ∀ name, table.get? name = other.get? name

theorem Alike.contains_eq (h : Alike table other) (name : String) :
    table.contains name = other.contains name := by
  rw [contains, contains, h name]

theorem Alike.insert (h : Alike table other) (name : String) (instructions : List String) :
    Alike (table.insert name instructions) (other.insert name instructions) := by
  intro asked
  rw [get?_insert, get?_insert, h asked]

/-- **The order of declarations makes no difference** to what a table knows. -/
theorem foldlM_declare_perm {first second : List Node} (h : first.Perm second)
    (hset : ∀ d ∈ first, 2 ≤ d.children.length)
    (hdistinct : (first.map Node.declaredName).Nodup) :
    EndsAlike Alike (first.foldlM declare empty).result (second.foldlM declare empty).result := by
  have hnew (d : Node) : empty.contains d.declaredName = false := rfl
  obtain ⟨table, htable, hget⟩ := exists_foldlM_declare hset hdistinct fun d _ => hnew d
  obtain ⟨other, hother, hget'⟩ := exists_foldlM_declare
    (fun d hd => hset d (h.mem_iff.2 hd)) ((h.map _).nodup_iff.1 hdistinct) fun d _ => hnew d
  rw [htable, hother]
  -- Entries differ in order; what a name stands for is told by membership alone.
  refine .ok fun name => Option.ext fun set => ?_
  rw [hget, hget']
  simp only [h.mem_iff]

end AliasTable

/-! ## Resolution -/

namespace Binding

variable {table other : AliasTable}

/-- The next free number depends on the names known only. -/
theorem freshIndex_eq_of_alike (h : table.Alike other) (used : Nat) :
    freshIndex table used = freshIndex other used := by
  obtain ⟨hlt, htaken⟩ := freshIndex_spec table used
  obtain ⟨hlt', htaken'⟩ := freshIndex_spec other used
  have hfree := freshIndex_not_contains table used
  have hfree' := freshIndex_not_contains other used
  rcases Nat.lt_trichotomy (freshIndex table used) (freshIndex other used) with hless | heq | hless
  · rw [h.contains_eq, htaken' _ hlt hless] at hfree
    cases hfree
  · exact heq
  · rw [← h.contains_eq, htaken _ hlt' hless] at hfree'
    cases hfree'

/-- What is known after some elements is the same, under tables that know the same. -/
structure Resolution.Alike (found other : Resolution) : Prop where
  table : found.table.Alike other.table
  used : found.used = other.used
  bindings : found.bindings = other.bindings

/-- One element resolves alike in tables that answer alike. -/
theorem Resolution.Alike.element {found other : Resolution} (h : found.Alike other)
    (position : Nat) (element : Node) :
    EndsAlike Resolution.Alike (found.element position element).result
      (other.element position element).result := by
  rw [Resolution.element, Resolution.element, Logged.result_bind, Logged.result_bind]
  refine .bind_same fun displayName _ => ?_
  rw [Logged.result_bind, Logged.result_bind]
  refine .bind_same fun body _ => ?_
  split
  case h_1 =>
    rw [h.table.contains_eq]
    split
    case isTrue => exact .ok ⟨h.table, h.used, by rw [h.bindings]⟩
    case isFalse => exact .ok h
  case h_2 => exact .ok h
  case h_3 =>
    have hfresh : freshIndex found.table found.used = freshIndex other.table other.used := by
      rw [h.used, freshIndex_eq_of_alike h.table]
    rw [hfresh]
    exact .ok ⟨h.table.insert _ _, rfl, by rw [h.bindings]⟩
  case h_4 => exact .error _

/-- A match side resolves alike in tables that answer alike. -/
theorem Resolution.Alike.elements {found other : Resolution} (h : found.Alike other)
    (position : Nat) (elements : List Node) :
    EndsAlike Resolution.Alike (found.elements position elements).result
      (other.elements position elements).result := by
  induction elements generalizing found other position with
  | nil => exact .ok h
  | cons element elements ih =>
    rw [Resolution.elements, Resolution.elements, Logged.result_bind, Logged.result_bind]
    exact (h.element position element).bind fun _ _ hnext => ih hnext (position + 1)

/-- **A rule has the same bindings under tables that know the same.** -/
theorem resolve_alike (h : table.Alike other) (rule : Node) :
    EndsAlike (fun found found' => found.1 = found'.1 ∧ found.2.Alike found'.2)
      (resolve rule table).result (resolve rule other).result := by
  rw [resolve, resolve, Logged.result_bind, Logged.result_bind]
  refine .bind_same fun pattern _ => ?_
  rw [Logged.result_bind, Logged.result_bind]
  have hstart : Resolution.Alike ⟨table, 0, []⟩ ⟨other, 0, []⟩ := ⟨h, rfl, rfl⟩
  exact (hstart.elements 0 pattern.children).bind fun _ _ hfound =>
    .ok ⟨hfound.bindings, hfound.table⟩

end Binding

end Peephole

import Mathlib.Algebra.BigOperators.Group.List.Basic
import Mathlib.Data.List.Nodup
import Peephole.Expansion

/-!
# Proofs/Expansion/Product — a walk over combinations is a walk over their product

The combinations of an expansion are walked in nested loops.  `product` lists them outright, the
first list varying slowest, and the nested loops come to one walk along that list
(`Walk.combinations_eq_each`).  Such a walk visits everything, or everything before the first item
that has a fault (`Walk.each_single`).

Whether there is a walk at all is decided by a count in a machine word, which is zero for a multiple
of `2 ^ 64` combinations as for none (`combinationCount_eq_zero_iff`).
-/

namespace Peephole

/-! ## Products -/

/-- **The combinations of one member per list**, the first list varying slowest. -/
def product : List (List String) → List (List String)
  | [] => [[]]
  | first :: more => first.flatMap fun item => (product more).map (item :: ·)

/-- A combination has one instruction of each set. -/
theorem mem_product {sets : List (List String)} {chosen : List String} :
    chosen ∈ product sets ↔ List.Forall₂ (· ∈ ·) chosen sets := by
  induction sets generalizing chosen with
  | nil => rw [product, List.mem_singleton, List.forall₂_nil_right_iff]
  | cons first more ih =>
    rw [product, List.mem_flatMap]
    constructor
    · rintro ⟨item, hitem, hchosen⟩
      obtain ⟨rest, hrest, rfl⟩ := List.mem_map.1 hchosen
      exact .cons hitem (ih.1 hrest)
    · rintro (_ | ⟨hitem, hrest⟩)
      exact ⟨_, hitem, List.mem_map_of_mem (ih.2 hrest)⟩

theorem eq_nil_iff_of_mem_product {sets : List (List String)} {chosen : List String}
    (h : chosen ∈ product sets) : chosen = [] ↔ sets = [] := by
  rw [← List.length_eq_zero_iff, (mem_product.1 h).length_eq, List.length_eq_zero_iff]

/-- What all candidates have in common, the instructions of a combination have. -/
theorem forall_of_mem_product {sets : List (List String)} {chosen : List String}
    {p : String → Prop} (hsets : ∀ set ∈ sets, ∀ item ∈ set, p item) (h : chosen ∈ product sets) :
    ∀ item ∈ chosen, p item := by
  rw [mem_product] at h
  induction h with
  | nil => exact fun _ hmem => absurd hmem List.not_mem_nil
  | cons hmem _ ih =>
    rw [List.forall_mem_cons] at hsets
    exact List.forall_mem_cons.2 ⟨hsets.1 _ hmem, ih hsets.2⟩

/-- There are as many combinations as the product of the sizes. -/
theorem length_product (sets : List (List String)) :
    (product sets).length = (sets.map List.length).prod := by
  induction sets with
  | nil => rfl
  | cons first more ih =>
    have hconst : ∀ items : List String,
        (items.flatMap fun item => (product more).map (item :: ·)).length
          = items.length * (product more).length := by
      intro items
      induction items with
      | nil => simp
      | cons item items ih =>
        rw [List.flatMap_cons, List.length_append, List.length_map, ih, List.length_cons,
          Nat.succ_mul, Nat.add_comm]
    rw [product, hconst, ih, List.map_cons, List.prod_cons]

/-- Lists without repetitions have a product without repetitions. -/
theorem nodup_product {sets : List (List String)} (h : ∀ set ∈ sets, set.Nodup) :
    (product sets).Nodup := by
  induction sets with
  | nil => exact List.nodup_singleton _
  | cons first more ih =>
    rw [List.forall_mem_cons] at h
    rw [product, List.nodup_flatMap]
    refine ⟨fun item _ => (ih h.2).map fun _ _ heq => (List.cons.inj heq).2, h.1.imp ?_⟩
    intro item other hne chosen hitem hother
    obtain ⟨rest, -, rfl⟩ := List.mem_map.1 hitem
    obtain ⟨_, -, heq⟩ := List.mem_map.1 hother
    exact hne (List.cons.inj heq).1.symm

/-! ## Counting -/

/-- **There are combinations, and a machine word counts none**: their number is a multiple of
`2 ^ 64`. -/
def Overflows (sets : List (List String)) : Prop :=
  2 ^ 64 ≤ (sets.map List.length).prod ∧ 2 ^ 64 ∣ (sets.map List.length).prod

instance (sets : List (List String)) : Decidable (Overflows sets) :=
  inferInstanceAs (Decidable (_ ∧ _))

/-- The word that counts combinations holds what is left of their number. -/
theorem toNat_combinationCount (sets : List (List String)) :
    (Expansion.combinationCount sets).toNat = (sets.map List.length).prod % 2 ^ 64 := by
  have hfold : ∀ count : UInt64,
      sets.foldl (fun count instructions => count * .ofNat instructions.length) count
        = count * .ofNat (sets.map List.length).prod := by
    induction sets with
    | nil => simp
    | cons first more ih =>
      intro count
      rw [List.foldl_cons, ih, List.map_cons, List.prod_cons, UInt64.ofNat_mul, UInt64.mul_assoc]
  rw [Expansion.combinationCount, hfold, UInt64.one_mul, UInt64.toNat_ofNat']

/-- No combination is counted if there is none, or if there are too many. -/
theorem combinationCount_eq_zero_iff {sets : List (List String)} :
    Expansion.combinationCount sets = 0 ↔ product sets = [] ∨ Overflows sets := by
  rw [← UInt64.toNat_inj, toNat_combinationCount, UInt64.toNat_zero, ← Nat.dvd_iff_mod_eq_zero,
    ← List.length_eq_zero_iff, length_product, Overflows]
  constructor
  · intro hdvd
    rcases Nat.eq_zero_or_pos (sets.map List.length).prod with hzero | hpos
    · exact .inl hzero
    · exact .inr ⟨Nat.le_of_dvd hpos hdvd, hdvd⟩
  · rintro (hzero | ⟨-, hdvd⟩)
    · rw [hzero]
      exact Nat.dvd_zero _
    · exact hdvd

/-- **The combinations that an expansion walks along**: all of them, unless they are counted as
none. -/
def visited (sets : List (List String)) : List (List String) :=
  if Overflows sets then [] else product sets

/-- What is counted as none is not visited, and all else is. -/
theorem visited_eq_ite_count (sets : List (List String)) :
    visited sets = if Expansion.combinationCount sets = 0 then [] else product sets := by
  rw [visited]
  by_cases hoverflows : Overflows sets
  · rw [if_pos hoverflows, if_pos (combinationCount_eq_zero_iff.2 (.inr hoverflows))]
  · rw [if_neg hoverflows]
    split
    case isTrue hzero => exact (combinationCount_eq_zero_iff.1 hzero).resolve_right hoverflows
    case isFalse => rfl

/-- What is visited are combinations, in their order. -/
theorem visited_sublist_product (sets : List (List String)) :
    (visited sets).Sublist (product sets) := by
  rw [visited]
  split
  case isTrue => exact List.nil_sublist _
  case isFalse => exact List.Sublist.refl _

/-- Where the count does not wrap around to zero, all combinations are visited, and otherwise
none. -/
theorem mem_visited {sets : List (List String)} {chosen : List String} :
    chosen ∈ visited sets ↔ ¬ Overflows sets ∧ chosen ∈ product sets := by
  rw [visited]
  split
  case isTrue hoverflows => simp [hoverflows]
  case isFalse hcounted => simp [hcounted]

/-! ## Walks -/

namespace Walk

variable {α β γ : Type}

/-- One walk after another, which is not begun where the first ends in a fault. -/
def andThen (first second : Walk β) : Walk β :=
  match first.fault with
  | some fault => ⟨first.done, some fault⟩
  | none => ⟨first.done ++ second.done, second.fault⟩

/-- Walks may be grouped at will. -/
theorem andThen_assoc (first second third : Walk β) :
    (first.andThen second).andThen third = first.andThen (second.andThen third) := by
  obtain ⟨done, _ | fault⟩ := first
  · obtain ⟨more, _ | fault⟩ := second
    · simp [andThen]
    · rfl
  · rfl

theorem each_cons (visit : α → Walk β) (item : α) (items : List α) :
    each visit (item :: items) = (visit item).andThen (each visit items) := by
  cases hfault : (visit item).fault <;> simp only [each, andThen, hfault]

/-- A walk over two lists is one over the first and then one over the second. -/
theorem each_append (visit : α → Walk β) (first second : List α) :
    each visit (first ++ second) = (each visit first).andThen (each visit second) := by
  induction first with
  | nil => rfl
  | cons item items ih => rw [List.cons_append, each_cons, each_cons, ih, andThen_assoc]

theorem each_flatMap (visit : β → Walk γ) (items : List α) (f : α → List β) :
    each visit (items.flatMap f) = each (fun item => each visit (f item)) items := by
  induction items with
  | nil => rfl
  | cons item items ih => rw [List.flatMap_cons, each_append, each_cons, ih]

theorem each_map (visit : β → Walk γ) (items : List α) (f : α → β) :
    each visit (items.map f) = each (fun item => visit (f item)) items := by
  induction items with
  | nil => rfl
  | cons item items ih => rw [List.map_cons, each_cons, each_cons, ih]

/-- The walk that ends with its first step. -/
def single : Except Fault β → Walk β
  | .ok value => ⟨[value], none⟩
  | .error fault => ⟨[], some fault⟩

/-- **Nested loops walk along the product.** -/
theorem combinations_eq_each (visit : List String → Except Fault β) (sets : List (List String))
    (chosen : List String) :
    combinations visit sets chosen
      = each (fun rest => single (visit (chosen ++ rest))) (product sets) := by
  induction sets generalizing chosen with
  | nil =>
    rw [combinations, product, each_cons, List.append_nil]
    cases visit chosen with
    | ok value => rfl
    | error fault => rfl
  | cons first more ih =>
    rw [combinations, product, each_flatMap]
    congr 1
    funext item
    rw [ih, each_map]
    congr 1
    funext rest
    rw [List.append_assoc, List.singleton_append]

/-- **A walk step by step visits everything, or everything before the first fault.** -/
theorem each_single (visit : α → Except Fault β) (items : List α) :
    (∃ done, List.Forall₂ (fun item value => visit item = .ok value) items done ∧
      each (fun item => single (visit item)) items = ⟨done, none⟩) ∨
    ∃ before item behind done fault, items = before ++ item :: behind ∧
      List.Forall₂ (fun item value => visit item = .ok value) before done ∧
      visit item = .error fault ∧
      each (fun item => single (visit item)) items = ⟨done, some fault⟩ := by
  induction items with
  | nil => exact .inl ⟨[], .nil, rfl⟩
  | cons first items ih =>
    cases hfirst : visit first with
    | error fault =>
      refine .inr ⟨[], first, items, [], fault, rfl, .nil, hfirst, ?_⟩
      rw [each_cons, hfirst]
      rfl
    | ok value =>
      have hcons : each (fun item => single (visit item)) (first :: items)
          = andThen ⟨[value], none⟩ (each (fun item => single (visit item)) items) := by
        rw [each_cons, hfirst]
        rfl
      rw [hcons]
      obtain ⟨done, hdone, heach⟩ |
        ⟨before, item, behind, done, fault, rfl, hdone, hitem, heach⟩ := ih
      · exact .inl ⟨value :: done, .cons hfirst hdone, by rw [heach]; rfl⟩
      · exact .inr ⟨first :: before, item, behind, value :: done, fault, rfl, .cons hfirst hdone,
          hitem, by rw [heach]; rfl⟩

/-- What a walk has done comes from the items it visits. -/
theorem exists_of_mem_each_single {visit : α → Except Fault β} {items : List α} {value : β}
    (h : value ∈ (each (fun item => single (visit item)) items).done) :
    ∃ item ∈ items, visit item = .ok value := by
  induction items with
  | nil => cases h
  | cons first items ih =>
    rw [each_cons] at h
    cases hfirst : visit first with
    | error fault =>
      rw [hfirst] at h
      cases h
    | ok done =>
      rw [hfirst] at h
      rcases List.mem_cons.1 h with rfl | hmore
      · exact ⟨first, List.mem_cons_self, hfirst⟩
      · obtain ⟨item, hitem, hvisit⟩ := ih hmore
        exact ⟨item, List.mem_cons_of_mem _ hitem, hvisit⟩

end Walk

end Peephole

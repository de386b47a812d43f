import Mathlib.Data.List.Infix
import Peephole.Proofs.C.Machine

/-!
# Proofs/C/Heap — instruction lists in memory

`Holds store node instrs` says that the list at a node is these instructions.  It outlives the
making of nodes, for a new node goes behind all others (`Holds.mono`).

New nodes are linked in the order in which they are made, each to the one after it, so a list under
construction is a run of cells behind everything else and one last cell whose `next` may still be
open (`extended`).  Closing it on an old list puts the two together (`holds_extended`), and that is
the list that `replace` then hands out (`replace_extended`).
-/

namespace Peephole.C

/-! ## Lists -/

/-- **The instructions of the list at a node.** -/
inductive Holds (store : Store) : Option Nat → List Instr → Prop where
  | nil : Holds store none []
  | cons {address : Nat} {cell : Cell} {instrs : List Instr} (h : store[address]? = some cell)
    (hrest : Holds store cell.next instrs) : Holds store (some address) (cell.instr :: instrs)

variable {store later : Store} {node : Option Nat} {instrs : List Instr}

theorem getElem?_mono {address : Nat} {cell : Cell} (h : store[address]? = some cell)
    (hp : store <+: later) : later[address]? = some cell := by
  obtain ⟨more, rfl⟩ := hp
  rw [List.getElem?_append_left (List.getElem?_eq_some_iff.1 h).1, h]

theorem Holds.mono (h : Holds store node instrs) (hp : store <+: later) :
    Holds later node instrs := by
  induction h with
  | nil => exact .nil
  | cons hcell _ ih => exact .cons (getElem?_mono hcell hp) ih

/-- A list ends in the memory it is held by. -/
theorem Holds.lt_length (h : Holds store node instrs) {address : Nat} (ha : node = some address) :
    address < store.length := by
  subst ha
  cases h with
  | cons hcell _ => exact (List.getElem?_eq_some_iff.1 hcell).1

/-- Skipping nodes drops instructions. -/
theorem Holds.skip (h : Holds store node instrs) (k : Nat) :
    ∃ rest, C.skip store k node = some rest ∧ Holds store rest (instrs.drop k) := by
  induction k generalizing node instrs with
  | zero => exact ⟨node, rfl, h⟩
  | succ k ih =>
    cases h with
    | nil => exact ⟨none, rfl, .nil⟩
    | cons hcell hrest =>
      obtain ⟨rest, hskip, hheld⟩ := ih hrest
      exact ⟨rest, by simp [C.skip, hcell, hskip], hheld⟩

/-- Skipping nodes goes the same way while the store grows. -/
theorem skip_mono {k : Nat} {rest : Option Nat} (h : C.skip store k node = some rest)
    (hp : store <+: later) : C.skip later k node = some rest := by
  induction k generalizing node with
  | zero => exact h
  | succ k ih =>
    cases node with
    | none => exact h
    | some address =>
      obtain ⟨cell, hcell, hskip⟩ := Option.bind_eq_some_iff.1 h
      rw [C.skip, getElem?_mono hcell hp]
      exact ih hskip

/-- The node of an instruction of the list. -/
theorem Holds.skip_of_getElem? (h : Holds store node instrs) {k : Nat} {instr : Instr}
    (hk : instrs[k]? = some instr) :
    ∃ address cell, C.skip store k node = some (some address) ∧ store[address]? = some cell ∧
      cell.instr = instr ∧ C.skip store (k + 1) node = some cell.next := by
  induction k generalizing node instrs with
  | zero =>
    cases h with
    | nil => simp at hk
    | @cons address cell instrs hcell hrest =>
      exact ⟨address, cell, rfl, hcell, by simpa using hk, by simp [C.skip, hcell]⟩
  | succ k ih =>
    cases h with
    | nil => simp at hk
    | @cons first firstCell instrs hcell hrest =>
      obtain ⟨address, cell, hskip, hget, hinstr, hnext⟩ := ih hrest (by simpa using hk)
      refine ⟨address, cell, ?_, hget, hinstr, ?_⟩
      · rw [C.skip, hcell]
        exact hskip
      · rw [C.skip, hcell]
        exact hnext

/-! ## Lists under construction -/

/-- Cells at consecutive addresses from `address` on, each linked to the one after it. -/
def chainCells (address : Nat) : List Instr → List Cell
  | [] => []
  | instr :: more => ⟨instr, some (address + 1)⟩ :: chainCells (address + 1) more

@[simp] theorem length_chainCells (address : Nat) (instrs : List Instr) :
    (chainCells address instrs).length = instrs.length := by
  induction instrs generalizing address with
  | nil => rfl
  | cons instr instrs ih => simp [chainCells, ih]

/-- A cell added to a chain goes on with the address behind it. -/
theorem chainCells_concat (address : Nat) (instrs : List Instr) (instr : Instr) :
    chainCells address (instrs ++ [instr])
      = chainCells address instrs ++ [⟨instr, some (address + instrs.length + 1)⟩] := by
  induction instrs generalizing address with
  | nil => rfl
  | cons first instrs ih =>
    rw [List.cons_append, chainCells, chainCells, ih, List.length_cons, List.cons_append]
    simp only [Nat.add_assoc, Nat.add_comm 1]

/-- Memory with a new list behind it, the last node of which goes on with `next`. -/
def extended (base : Store) (init : List Instr) (last : Instr) (next : Option Nat) : Store :=
  base ++ chainCells base.length init ++ [⟨last, next⟩]

section Extended

variable {base : Store} {init : List Instr} {last : Instr} {next : Option Nat}

theorem grown_extended : base <+: extended base init last next := by
  rw [extended, List.append_assoc]
  exact List.prefix_append _ _

theorem length_extended :
    (extended base init last next).length = base.length + init.length + 1 := by
  simp [extended, Nat.add_assoc]

theorem extended_cons {instr : Instr} :
    extended base (instr :: init) last next
      = extended (base ++ [⟨instr, some (base.length + 1)⟩]) init last next := by
  simp [extended, chainCells]

/-- Setting where the last node goes on. -/
theorem setNext_extended (new : Option Nat) :
    setNext (extended base init last next) (base.length + init.length) new
      = some (extended base init last new) := by
  simp [setNext, extended]

/-- Linking the last node to one made after it. -/
theorem setNext_extended_concat (instr : Instr) :
    setNext (extended base init last none ++ [⟨instr, none⟩]) (base.length + init.length)
        (some (base.length + init.length + 1))
      = some (extended base (init ++ [last]) instr none) := by
  simp [setNext, extended, chainCells_concat]

/-- **A new list, closed on an old one.** -/
theorem holds_extended {tail : List Instr} (hrest : Holds base next tail) :
    Holds (extended base init last next) (some base.length) (init ++ last :: tail) := by
  induction init generalizing base with
  | nil =>
    have hlast : (extended base [] last next)[base.length]? = some ⟨last, next⟩ := by
      simp [extended, chainCells]
    exact .cons hlast (hrest.mono grown_extended)
  | cons instr init ih =>
    have hmore := ih (hrest.mono (List.prefix_append base [⟨instr, some (base.length + 1)⟩]))
    have hfirst : (extended base (instr :: init) last next)[base.length]?
        = some ⟨instr, some (base.length + 1)⟩ := by
      simp [extended, chainCells]
    rw [← extended_cons, List.length_append, List.length_singleton] at hmore
    exact .cons hfirst hmore

/-- The search for the last node of a new list stops there. -/
theorem lastBefore_extended (hold : ∀ address ∈ next, address < base.length) {fuel : Nat}
    (hf : init.length < fuel) :
    lastBefore (extended base init last next) next fuel base.length
      = some (base.length + init.length) := by
  induction init generalizing base fuel with
  | nil =>
    obtain ⟨fuel, rfl⟩ : ∃ n, fuel = n + 1 := ⟨fuel - 1, by omega⟩
    cases next with
    | none => simp [lastBefore, extended, chainCells]
    | some next => simp [lastBefore, extended, chainCells]
  | cons instr init ih =>
    obtain ⟨fuel, rfl⟩ : ∃ n, fuel = n + 1 := ⟨fuel - 1, by omega⟩
    rw [List.length_cons] at hf ⊢
    have hstep := @ih (base ++ [⟨instr, some (base.length + 1)⟩])
      (fun address ha => by
        have := hold address ha
        rw [List.length_append]
        omega) fuel (by omega)
    have hfirst : (extended base (instr :: init) last next)[base.length]?
        = some ⟨instr, some (base.length + 1)⟩ := by
      simp [extended, chainCells]
    have hother : some (base.length + 1) ≠ next := by
      rintro rfl
      have := hold _ rfl
      omega
    rw [← extended_cons, List.length_append, List.length_singleton] at hstep
    rw [lastBefore, hfirst]
    simp only [Option.bind_eq_bind, Option.bind_some, if_neg hother]
    rw [hstep]
    congr 1
    omega

/-- **`replace` hands out a new list that is closed already.** -/
theorem replace_extended {state : State} {consumed : Nat} {tail : List Instr}
    (hstore : state.store = extended base init last next)
    (hskip : skip base consumed state.start = some next) (hrest : Holds base next tail) :
    replace consumed (some base.length) state
      = some (.int 1, { state with start := some base.length }) := by
  have hskip' : skip (extended base init last next) consumed state.start = some next :=
    skip_mono hskip grown_extended
  have hlast : lastBefore (extended base init last next) next
      (extended base init last next).length base.length = some (base.length + init.length) :=
    lastBefore_extended (fun _ ha => hrest.lt_length ha) (by rw [length_extended]; omega)
  simp only [replace, hstore, hskip', hlast, setNext_extended, Option.bind_eq_bind,
    Option.bind_some, Option.pure_def]

end Extended

end Peephole.C

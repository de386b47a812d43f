import Peephole.Notice
import Peephole.Tree.Node

/-!
# Alias — the instruction sets of a pattern file

An alias names a list of instructions without repetitions, in the order in which they were first
listed: the order of expansion.  A table is built from the declarations a file opens with
(`AliasTable.build`); a declaration after the first rule declares nothing.
-/

namespace Peephole

/-- The instructions that each alias stands for. -/
structure AliasTable where
  entries : List (String × List String)
  /-- An alias is declared once. -/
  names_nodup : (entries.map (·.1)).Nodup
  /-- An alias lists an instruction once. -/
  instructions_nodup : ∀ entry ∈ entries, entry.2.Nodup
deriving DecidableEq, Repr

/-- The first occurrences in a list, of what `seen` does not hold. -/
def firstOccurrences (seen : List String) : List String → List String
  | [] => []
  | item :: items =>
    if item ∈ seen then firstOccurrences seen items
    else item :: firstOccurrences (item :: seen) items

/-- The later occurrences in a list, and those of what `seen` holds. -/
def laterOccurrences (seen : List String) : List String → List String
  | [] => []
  | item :: items =>
    if item ∈ seen then item :: laterOccurrences seen items
    else laterOccurrences (item :: seen) items

/-- Exactly the items not seen before are kept. -/
theorem mem_firstOccurrences {item : String} {seen items : List String} :
    item ∈ firstOccurrences seen items ↔ item ∈ items ∧ item ∉ seen := by
  fun_induction firstOccurrences seen items with
  | case1 => simp
  | case2 seen first items hseen ih => grind
  | case3 seen first items hnew ih => grind

/-- No item is kept twice. -/
theorem nodup_firstOccurrences (seen items : List String) :
    (firstOccurrences seen items).Nodup := by
  fun_induction firstOccurrences seen items with
  | case1 => exact List.nodup_nil
  | case2 seen first items _ ih => exact ih
  | case3 seen first items _ ih =>
    refine List.nodup_cons.2 ⟨fun hmem => ?_, ih⟩
    exact (mem_firstOccurrences.1 hmem).2 List.mem_cons_self

namespace AliasTable

/-- The table of a file that declares nothing. -/
def empty : AliasTable := ⟨[], List.nodup_nil, by simp⟩

/-- The number of aliases. -/
def size (table : AliasTable) : Nat := table.entries.length

/-- Whether there is no alias. -/
def isEmpty (table : AliasTable) : Bool := table.entries.isEmpty

/-- The instructions of an alias. -/
def get? (table : AliasTable) (name : String) : Option (List String) :=
  (table.entries.find? (·.1 == name)).map (·.2)

/-- Whether a name is an alias. -/
def contains (table : AliasTable) (name : String) : Bool := (table.get? name).isSome

/-- Declares an alias, or declares it anew. -/
def insert (table : AliasTable) (name : String) (instructions : List String) : AliasTable where
  entries := table.entries.filter (·.1 != name) ++ [(name, firstOccurrences [] instructions)]
  names_nodup := by
    rw [List.map_append, List.nodup_append]
    refine ⟨table.names_nodup.sublist (List.filter_sublist.map _), by simp, ?_⟩
    rintro earlier hearlier _ hname rfl
    obtain ⟨entry, hentry, rfl⟩ := List.mem_map.1 hearlier
    simp only [List.mem_filter, bne_iff_ne] at hentry
    exact hentry.2 (by simpa using hname)
  instructions_nodup entry hentry := by
    rcases List.mem_append.1 hentry with hentry | hentry
    · exact table.instructions_nodup entry (List.mem_filter.1 hentry).1
    · rw [List.mem_singleton.1 hentry]
      exact nodup_firstOccurrences [] instructions

/-- An insertion answers for its own name, with repetitions dropped, and for no other. -/
theorem get?_insert (table : AliasTable) (name other : String) (instructions : List String) :
    (table.insert name instructions).get? other
      = if other = name then some (firstOccurrences [] instructions) else table.get? other := by
  have hfind : (table.entries.filter (·.1 != name)).find? (·.1 == other)
      = if other = name then none else table.entries.find? (·.1 == other) := by
    rw [List.find?_filter]
    by_cases h : other = name
    · simp [h]
    · have hsame : (fun entry : String × List String =>
          decide ((entry.1 != name) = true ∧ (entry.1 == other) = true))
          = fun entry => entry.1 == other := by
        funext entry
        by_cases hentry : entry.1 = other
        · simp [hentry, h]
        · simp [hentry]
      rw [hsame, if_neg h]
  have hlast : (name == other) = decide (other = name) := by
    by_cases h : other = name
    · simp [h]
    · simp [h, Ne.symm h]
  rw [get?, insert, List.find?_append, hfind]
  by_cases h : other = name
  · simp [h]
  · simp [h, hlast, get?]

theorem contains_insert (table : AliasTable) (name other : String) (instructions : List String) :
    (table.insert name instructions).contains other
      = (decide (other = name) || table.contains other) := by
  rw [contains, get?_insert]
  by_cases h : other = name
  · simp [h]
  · simp [h, contains]

theorem contains_eq_contains_map (table : AliasTable) (name : String) :
    table.contains name = (table.entries.map (·.1)).contains name := by
  rw [contains, get?, Option.isSome_map, Bool.eq_iff_iff, List.find?_isSome, List.contains_iff_mem,
    List.mem_map]
  simp only [beq_iff_eq]

/-- Declares an alias, reporting the instructions listed again. -/
def insertLogged (table : AliasTable) (name : String) (instructions : List String) :
    Logged Fault AliasTable := do
  Logged.report ((laterOccurrences [] instructions).map (.repeatedInstruction · name))
  return table.insert name instructions

/-- Adds the alias that a node declares. -/
def declare (table : AliasTable) (declaration : Node) : Logged Fault AliasTable :=
  match declaration.children with
  | [] => Logged.ofExcept (.error (.malformed .declaration .missingDeclaredName))
  | [_] => Logged.ofExcept (.error (.malformed .declaration .missingInstructionSet))
  | name :: set :: _ =>
    if table.contains name.text then
      Logged.ofExcept (.error (.duplicateDeclaration name.text))
    else table.insertLogged name.text set.childTexts

/-- The declarations a program opens with. -/
def leadingDeclarations (program : Node) : List Node :=
  program.children.takeWhile (·.kind = .declaration)

/-- The aliases that a program declares. -/
def build (program : Node) : Logged Fault AliasTable :=
  (leadingDeclarations program).foldlM declare empty

end AliasTable

end Peephole

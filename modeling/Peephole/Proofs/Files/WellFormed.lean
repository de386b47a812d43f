import Mathlib.Data.List.Nodup
import Mathlib.Logic.Relation
import Peephole.Proofs.Files.PathOrder

/-!
# Proofs/Files/WellFormed — the places that operations lead to

A path leads to places that names lead to: its parts are not empty and hold no slash, and `.` and
`..` are not entered.  So all entries that operations make have names, and each place stands once
among them (`WellFormed`), whatever is done to a file system that starts with nothing but a working
directory (`wellFormed_of_changes`).
-/

namespace Peephole

namespace Path

/-- What holds of the characters of a path holds of those of its parts, and none is a slash. -/
theorem forall_mem_splitParts {p : Char → Prop} {part cs : List Char}
    (hpart : ∀ c ∈ part, p c ∧ c ≠ '/') (hcs : ∀ c ∈ cs, p c) :
    ∀ found ∈ splitParts part cs, ∀ c ∈ found.toList, p c ∧ c ≠ '/' := by
  induction cs generalizing part with
  | nil => simpa [splitParts] using hpart
  | cons c cs ih =>
    obtain ⟨hc, hcs⟩ := List.forall_mem_cons.1 hcs
    rw [splitParts]
    split
    case isTrue =>
      refine List.forall_mem_cons.2 ⟨?_, ih (by simp) hcs⟩
      simpa using hpart
    case isFalse hslash => exact ih (List.forall_mem_cons.2 ⟨⟨hc, hslash⟩, hpart⟩) hcs

/-- A part that a path can have. -/
structure IsPart (part : String) : Prop where
  ne_empty : part ≠ ""
  no_slash : '/' ∉ part.toList
  no_nul : '\x00' ∉ part.toList

/-- The parts of a path without a NUL are not empty and have neither a slash nor a NUL in them. -/
theorem isPart_of_mem_parts {path part : String} (hnul : '\x00' ∉ path.toList)
    (h : part ∈ parts path) : IsPart part := by
  obtain ⟨hmem, hempty⟩ := List.mem_filter.1 h
  have hall : ∀ c ∈ part.toList, c ≠ '\x00' ∧ c ≠ '/' := by
    refine forall_mem_splitParts (by simp) ?_ part hmem
    rintro c hc rfl
    exact hnul hc
  exact ⟨by simpa using hempty, fun hc => (hall _ hc).2 rfl, fun hc => (hall _ hc).1 rfl⟩

end Path

namespace FileSystem

variable {files before after : FileSystem} {place found : List String} {path : String}

/-! ## Places that names lead to -/

/-- A place that names lead to. -/
def IsPlace (place : List String) : Prop := ∀ name ∈ place, Path.IsName name

instance (place : List String) : Decidable (IsPlace place) :=
  inferInstanceAs (Decidable (∀ name ∈ place, Path.IsName name))

/-- Following parts leads from a place to a place. -/
theorem isPlace_of_follow {parts : List String} (hplace : IsPlace place)
    (hparts : ∀ part ∈ parts, Path.IsPart part) (h : files.follow place parts = .ok found) :
    IsPlace found := by
  induction parts generalizing place with
  | nil =>
    obtain rfl := Except.ok.inj h
    exact hplace
  | cons part parts ih =>
    obtain ⟨hpart, hparts⟩ := List.forall_mem_cons.1 hparts
    obtain ⟨-, hshort, h⟩ := follow_cons_eq_ok_iff.1 h
    refine ih ?_ hparts h
    rw [enter]
    split
    case isTrue => exact hplace
    case isFalse hdot =>
      split
      case isTrue => exact fun name hmem => hplace name (List.dropLast_subset _ hmem)
      case isFalse hdots =>
        refine List.forall_mem_append.2 ⟨hplace, List.forall_mem_singleton.2 ?_⟩
        exact ⟨hpart.ne_empty, hdot, hdots, hpart.no_slash, hpart.no_nul, hshort⟩

/-- Every place is one that names lead to, and stands once among the entries. -/
structure WellFormed (files : FileSystem) : Prop where
  workingDirectory : IsPlace files.workingDirectory
  places : ∀ entry ∈ files.entries, IsPlace entry.1
  distinct : (files.entries.map Prod.fst).Nodup

instance (files : FileSystem) : Decidable files.WellFormed :=
  decidable_of_iff (IsPlace files.workingDirectory ∧ (∀ entry ∈ files.entries, IsPlace entry.1) ∧
      (files.entries.map Prod.fst).Nodup)
    ⟨fun h => ⟨h.1, h.2.1, h.2.2⟩, fun h => ⟨h.workingDirectory, h.places, h.distinct⟩⟩

/-- A path leads to a place. -/
theorem WellFormed.isPlace_of_locate (hfiles : files.WellFormed)
    (h : files.locate path = .ok place) : IsPlace place := by
  obtain ⟨hnul, -, -, hfollow⟩ := locate_eq_ok_iff.1 h
  refine isPlace_of_follow ?_ (fun part => Path.isPart_of_mem_parts hnul) hfollow
  split
  case isTrue => exact fun name hmem => absurd hmem List.not_mem_nil
  case isFalse => exact hfiles.workingDirectory

/-- What stands at a place is the entry for it. -/
theorem WellFormed.get?_eq_some_iff (hfiles : files.WellFormed) (hplace : place ≠ [])
    {entry : Entry} : files.get? place = some entry ↔ (place, entry) ∈ files.entries := by
  rw [get?_of_ne_nil hplace, Option.map_eq_some_iff]
  constructor
  · rintro ⟨found, hfind, rfl⟩
    have hfound : found.1 = place := by simpa using List.find?_some hfind
    rw [← hfound]
    exact List.mem_of_find?_eq_some hfind
  · intro hmem
    cases hfind : files.entries.find? (·.1 == place) with
    | none => simpa using List.find?_eq_none.1 hfind _ hmem
    | some found =>
      refine ⟨found, rfl, ?_⟩
      have hfound : found.1 = place := by simpa using List.find?_some hfind
      have hsame : found = (place, entry) :=
        List.inj_on_of_nodup_map hfiles.distinct (List.mem_of_find?_eq_some hfind) hmem hfound
      rw [hsame]

/-! ## Operations -/

theorem WellFormed.erase (hfiles : files.WellFormed) (place : List String) :
    (files.erase place).WellFormed where
  workingDirectory := hfiles.workingDirectory
  places entry hmem := hfiles.places entry (List.mem_of_mem_filter hmem)
  distinct := hfiles.distinct.sublist (List.filter_sublist.map Prod.fst)

/-- An insertion at a place keeps a file system well-formed. -/
theorem WellFormed.insert (hfiles : files.WellFormed) (hplace : IsPlace place) (entry : Entry) :
    (files.insert place entry).WellFormed where
  workingDirectory := hfiles.workingDirectory
  places :=
    List.forall_mem_append.2 ⟨(hfiles.erase place).places, List.forall_mem_singleton.2 hplace⟩
  distinct := by
    show ((files.erase place).entries ++ [(place, entry)] |>.map Prod.fst).Nodup
    rw [List.map_append, List.nodup_append]
    refine ⟨(hfiles.erase place).distinct, List.nodup_singleton _, ?_⟩
    rintro other hother _ hplace rfl
    obtain ⟨entry', hentry, rfl⟩ := List.mem_map.1 hother
    obtain ⟨-, hne⟩ := List.mem_filter.1 hentry
    simp [List.mem_singleton.1 hplace] at hne

/-- What an operation does to a file system. -/
inductive Changes (before after : FileSystem) : Prop
  | created {path : String} (h : before.createFile path = .ok after)
  | filled {path : String} {contents : ByteArray} {result : Except OsError Unit}
    (h : before.fill path contents = (result, after))
  | removed {path : String} (h : before.removeFile path = .ok after)
  | renamed {source destination : String} (h : before.rename source destination = .ok after)
  | made {path : String} (h : before.makeDirectory path = .ok after)

/-- **Operations keep a file system well-formed.** -/
theorem WellFormed.changes (hfiles : before.WellFormed) (h : Changes before after) :
    after.WellFormed := by
  cases h with
  | created h =>
    obtain ⟨place, hplace, -, -, rfl⟩ := createFile_eq_ok_iff.1 h
    exact hfiles.insert (hfiles.isPlace_of_locate hplace) _
  | filled h =>
    obtain ⟨_, -, rfl⟩ | ⟨place, kept, hplace, rfl, -⟩ := fill_cases h
    · exact hfiles
    · exact hfiles.insert (hfiles.isPlace_of_locate hplace) _
  | removed h =>
    obtain ⟨place, contents, -, -, rfl⟩ := removeFile_eq_ok_iff.1 h
    exact hfiles.erase place
  | renamed h =>
    obtain ⟨sourcePlace, place, contents, -, hplace, -, -, -, -, rfl⟩ := exists_of_rename h
    exact (hfiles.erase sourcePlace).insert (hfiles.isPlace_of_locate hplace) _
  | made h =>
    obtain ⟨place, hplace, h⟩ := bind_eq_ok_iff.1 h
    split at h
    case isTrue => cases h
    case isFalse =>
      obtain rfl := Except.ok.inj h
      exact hfiles.insert (hfiles.isPlace_of_locate hplace) _

/-- A working directory alone is a well-formed file system. -/
theorem wellFormed_ofWorkingDirectory (hplace : IsPlace place) :
    (ofWorkingDirectory place).WellFormed where
  workingDirectory := hplace
  places entry hmem := by
    obtain ⟨above, -, rfl⟩ := List.mem_map.1 hmem
    exact fun name hname => hplace name (List.mem_of_mem_take hname)
  distinct := by
    rw [ofWorkingDirectory, List.map_map]
    refine List.nodup_range.map_on ?_
    intro first hfirst second hsecond heq
    have hlength := congrArg List.length heq
    rw [List.mem_range] at hfirst hsecond
    simp only [Function.comp_apply, List.length_take] at hlength
    omega

/-- **Whatever is done in a working directory, the file system stays well-formed.** -/
theorem wellFormed_of_changes (hplace : IsPlace place)
    (h : Relation.ReflTransGen Changes (ofWorkingDirectory place) files) : files.WellFormed := by
  induction h with
  | refl => exact wellFormed_ofWorkingDirectory hplace
  | tail _ hstep ih => exact ih.changes hstep

end FileSystem

end Peephole

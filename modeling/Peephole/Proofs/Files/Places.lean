import Mathlib.Data.List.Basic
import Peephole.Files.FileSystem
import Peephole.Notice

/-!
# Proofs/Files/Places — what the operations of a file system do to its places

An operation goes by a path and works at the place the path leads to.  Each is described here by
what stands at every place afterwards, so that nothing else needs to look at the entries of a file
system.  Paths lead where they led as long as no directory is lost (`locate_of_keeps`), and a path
never leads to the same place as the path with `.tmp` behind it (`locate_temporary_ne`).
-/

namespace Peephole

namespace Path

/-! ## Names with something behind them -/

/-- A text without a slash is one part. -/
theorem splitParts_of_no_slash {cs : List Char} (h : '/' ∉ cs) (part : List Char) :
    splitParts part cs = [String.ofList (part.reverse ++ cs)] := by
  induction cs generalizing part with
  | nil => simp [splitParts]
  | cons c cs ih =>
    rw [List.mem_cons, not_or] at h
    rw [splitParts, if_neg (Ne.symm h.1), ih h.2, List.reverse_cons, List.append_assoc]
    rfl

/-- What is written behind a path belongs to its last part, which is empty behind a slash only. -/
theorem splitParts_append {suffix : List Char} (h : '/' ∉ suffix) : ∀ (part cs : List Char),
    ∃ front last, splitParts part cs = front ++ [last] ∧
      splitParts part (cs ++ suffix) = front ++ [last ++ String.ofList suffix] ∧
      (last = "" → part = [] ∧ cs = [] ∨ cs.getLast? = some '/')
  | part, [] => by
    refine ⟨[], String.ofList part.reverse, rfl, ?_, ?_⟩
    · rw [List.nil_append, splitParts_of_no_slash h, String.ofList_append]
      rfl
    · intro hlast
      refine .inl ⟨?_, rfl⟩
      simpa using congrArg String.toList hlast
  | part, c :: cs => by
    have hlast : ∀ {last : String} {part : List Char},
        (last = "" → part = [] ∧ cs = [] ∨ cs.getLast? = some '/') →
        (c = '/' ∨ part ≠ []) → last = "" → (c :: cs).getLast? = some '/' := by
      intro last part hempty hc hnone
      rcases hempty hnone with ⟨hpart, rfl⟩ | hslash
      · rcases hc with rfl | hne
        · rfl
        · exact absurd hpart hne
      · rw [List.getLast?_cons, hslash]
        rfl
    by_cases hc : c = '/'
    · obtain ⟨front, last, hcs, happend, hempty⟩ := splitParts_append h [] cs
      refine ⟨String.ofList part.reverse :: front, last, ?_, ?_,
        fun hnone => .inr (hlast hempty (.inl hc) hnone)⟩
      · rw [splitParts, if_pos hc, hcs, List.cons_append]
      · rw [List.cons_append, splitParts, if_pos hc, happend, List.cons_append]
    · obtain ⟨front, last, hcs, happend, hempty⟩ := splitParts_append h (c :: part) cs
      refine ⟨front, last, ?_, ?_,
        fun hnone => .inr (hlast hempty (.inr (List.cons_ne_nil _ _)) hnone)⟩
      · rw [splitParts, if_neg hc, hcs]
      · rw [List.cons_append, splitParts, if_neg hc, happend]

/-- **What is written behind a path that ends in a name belongs to that name.** -/
theorem parts_append {path suffix : String} (hpath : path ≠ "") (hslash : endsInSlash path = false)
    (hsuffix : '/' ∉ suffix.toList) :
    ∃ front name, parts path = front ++ [name] ∧ parts (path ++ suffix) = front ++ [name ++ suffix]
    := by
  obtain ⟨front, name, hparts, happend, hempty⟩ := splitParts_append hsuffix [] path.toList
  have hname : name ≠ "" := by
    intro hname
    rcases hempty hname with ⟨-, hnil⟩ | hlast
    · exact hpath (String.toList_eq_nil_iff.1 hnil)
    · simp [endsInSlash, hlast] at hslash
  have hboth : name ++ suffix ≠ "" := by
    intro hboth
    exact hname (String.append_eq_empty_iff.1 hboth).1
  refine ⟨front.filter (· ≠ ""), name, ?_, ?_⟩
  · rw [parts, hparts, List.filter_append, List.filter_singleton]
    simp [hname]
  · rw [parts, String.toList_append, happend, List.filter_append, List.filter_singleton,
      String.ofList_toList]
    simp [hboth]

end Path

namespace FileSystem

variable {files before after : FileSystem} {place other found : List String} {path : String}

/-! ## One place -/

theorem find?_filter_ne {entries : List (List String × Entry)} :
    (entries.filter (·.1 != place)).find? (·.1 == other)
      = if other = place then none else entries.find? (·.1 == other) := by
  rw [List.find?_filter]
  by_cases h : other = place
  · rw [if_pos h, List.find?_eq_none]
    rintro entry -
    simp [h]
  · rw [if_neg h]
    congr 1
    funext entry
    by_cases hentry : entry.1 = other
    · simp [hentry, h]
    · simp [hentry]

theorem get?_of_ne_nil (h : place ≠ []) :
    files.get? place = (files.entries.find? (·.1 == place)).map (·.2) := by
  cases place with
  | nil => exact absurd rfl h
  | cons name names => rfl

/-- The root is a directory, so what is none stands elsewhere. -/
theorem ne_nil_of_get? (h : files.get? place ≠ some .directory) : place ≠ [] := by
  rintro rfl
  exact h rfl

/-- An insertion changes what is at its place, and at no other. -/
theorem get?_insert (h : place ≠ []) (entry : Entry) (other : List String) :
    (files.insert place entry).get? other = if other = place then some entry else files.get? other
    := by
  by_cases hother : other = []
  · rw [hother, if_neg h.symm]
    rfl
  · rw [get?_of_ne_nil hother, get?_of_ne_nil hother, insert, List.find?_append, find?_filter_ne]
    by_cases heq : other = place
    · simp [heq]
    · simp [heq, Ne.symm heq]

/-- A removal changes what is at its place, and at no other. -/
theorem get?_erase (h : place ≠ []) (other : List String) :
    (files.erase place).get? other = if other = place then none else files.get? other := by
  by_cases hother : other = []
  · rw [hother, if_neg h.symm]
    rfl
  · rw [get?_of_ne_nil hother, get?_of_ne_nil hother, erase, find?_filter_ne]
    by_cases heq : other = place
    · simp [heq]
    · simp [heq]

/-- What is put at a place and removed again leaves nothing there. -/
theorem get?_erase_insert (h : place ≠ []) (entry : Entry) (other : List String) :
    ((files.insert place entry).erase place).get? other
      = if other = place then none else files.get? other := by
  rw [get?_erase h, get?_insert h]
  by_cases heq : other = place
  · simp [heq]
  · simp [heq]

/-! ## Where paths lead -/

/-- The place that a part leads to from another. -/
def enter (place : List String) (part : String) : List String :=
  if part = "." then place else if part = ".." then place.dropLast else place ++ [part]

/-- A step is taken in a directory only, and by a name that is short enough. -/
theorem follow_cons_eq_ok_iff {part : String} {parts : List String} :
    files.follow place (part :: parts) = .ok found ↔
      files.get? place = some .directory ∧ part.utf8ByteSize ≤ maxNameBytes ∧
        files.follow (enter place part) parts = .ok found := by
  rw [follow]
  cases hplace : files.get? place with
  | none => simp
  | some entry =>
    cases entry with
    | file contents => simp
    | directory =>
      by_cases hdot : part = "."
      · subst hdot
        simp [enter, show (".".utf8ByteSize ≤ maxNameBytes) from by decide]
      · by_cases hdots : part = ".."
        · subst hdots
          simp [enter, show ("..".utf8ByteSize ≤ maxNameBytes) from by decide]
        · by_cases hlong : maxNameBytes < part.utf8ByteSize
          · simp [hdot, hdots, hlong, Nat.not_le_of_lt hlong]
          · simp [hdot, hdots, hlong, enter, Nat.le_of_not_lt hlong]

/-- Parts are followed one after the other. -/
theorem follow_append_eq_ok_iff {parts more : List String} :
    files.follow place (parts ++ more) = .ok found ↔
      ∃ mid, files.follow place parts = .ok mid ∧ files.follow mid more = .ok found := by
  induction parts generalizing place with
  | nil => simp [follow]
  | cons part parts ih =>
    rw [List.cons_append, follow_cons_eq_ok_iff, ih]
    simp only [follow_cons_eq_ok_iff]
    tauto

/-- No directory is lost, and paths start where they started. -/
structure Keeps (before after : FileSystem) : Prop where
  workingDirectory : after.workingDirectory = before.workingDirectory
  directory : ∀ place, before.get? place = some .directory → after.get? place = some .directory

/-- A way stays open while directories are kept. -/
theorem Keeps.follow (h : Keeps before after) {parts : List String}
    (hfollow : before.follow place parts = .ok found) : after.follow place parts = .ok found := by
  induction parts generalizing place with
  | nil => exact hfollow
  | cons part parts ih =>
    obtain ⟨hplace, hlength, hmore⟩ := follow_cons_eq_ok_iff.1 hfollow
    exact follow_cons_eq_ok_iff.2 ⟨h.directory place hplace, hlength, ih hmore⟩

/-- **Where a path leads**: it has no NUL, is not too long and not empty, and its parts can be
followed. -/
theorem locate_eq_ok_iff :
    files.locate path = .ok found ↔
      '\x00' ∉ path.toList ∧ path.utf8ByteSize ≤ maxPathBytes ∧ path ≠ "" ∧
        files.follow (if Path.isAbsolute path then [] else files.workingDirectory)
          (Path.parts path) = .ok found := by
  rw [locate]
  by_cases hnul : '\x00' ∈ path.toList
  · simp [hnul]
  · by_cases hlong : maxPathBytes < path.utf8ByteSize
    · simp [hnul, hlong, Nat.not_le_of_lt hlong]
    · by_cases hempty : path = ""
      · simp [hempty]
      · simp [hnul, hlong, hempty, Nat.le_of_not_lt hlong]

/-- **Paths lead where they led as long as no directory is lost.** -/
theorem locate_of_keeps (h : Keeps before after) (hlocate : before.locate path = .ok place) :
    after.locate path = .ok place := by
  obtain ⟨hnul, hlong, hempty, hfollow⟩ := locate_eq_ok_iff.1 hlocate
  rw [← h.workingDirectory] at hfollow
  exact locate_eq_ok_iff.2 ⟨hnul, hlong, hempty, h.follow hfollow⟩

theorem follow_singleton {part : String} (h : files.follow place [part] = .ok found) :
    found = enter place part := by
  obtain ⟨-, -, hfound⟩ := follow_cons_eq_ok_iff.1 h
  exact (Except.ok.inj hfound).symm

/-- The name of a temporary file is not one of those that name no entry of their own. -/
theorem enter_temporary (place : List String) (name : String) :
    enter place (name ++ ".tmp") = place ++ [name ++ ".tmp"] := by
  have hne : ∀ other : String, other.length < 4 → name ++ ".tmp" ≠ other := by
    rintro other hlength rfl
    rw [String.length_append] at hlength
    have : ".tmp".length = 4 := rfl
    omega
  rw [enter, if_neg (hne "." (by decide)), if_neg (hne ".." (by decide))]

/-- **A path that can be renamed to leads elsewhere than its temporary file.** -/
theorem locate_temporary_ne (hslash : Path.endsInSlash path = false)
    (hdots : endsInDots path = false) (hlocate : files.locate path = .ok place)
    (htemporary : files.locate (path ++ ".tmp") = .ok other) : place ≠ other := by
  obtain ⟨-, -, hempty, hfollow⟩ := locate_eq_ok_iff.1 hlocate
  obtain ⟨-, -, -, hfollow'⟩ := locate_eq_ok_iff.1 htemporary
  obtain ⟨front, name, hparts, hparts'⟩ := @Path.parts_append path ".tmp" hempty hslash (by decide)
  have habsolute : Path.isAbsolute (path ++ ".tmp") = Path.isAbsolute path := by
    obtain ⟨c, cs, hcs⟩ := List.exists_cons_of_ne_nil (mt String.toList_eq_nil_iff.1 hempty)
    rw [Path.isAbsolute, Path.isAbsolute, String.toList_append, hcs]
    rfl
  rw [habsolute, hparts'] at hfollow'
  rw [hparts] at hfollow
  -- Both lead through the same directory and differ in the last name.
  obtain ⟨directory, hdirectory, hlast⟩ := follow_append_eq_ok_iff.1 hfollow
  obtain ⟨directory', hdirectory', hlast'⟩ := follow_append_eq_ok_iff.1 hfollow'
  obtain rfl := Except.ok.inj (hdirectory.symm.trans hdirectory')
  have hname : name ≠ "." ∧ name ≠ ".." := by
    simpa [endsInDots, hparts] using hdots
  rw [follow_singleton hlast, follow_singleton hlast', enter_temporary, enter, if_neg hname.1,
    if_neg hname.2]
  intro heq
  have hsame := (List.append_inj_right' heq rfl)
  have hlength := congrArg String.length (List.cons.inj hsame).1
  rw [String.length_append] at hlength
  have : ".tmp".length = 4 := rfl
  omega

/-! ## Operations -/

/-- A path finds the entry at its place; behind a slash that has to be a directory. -/
theorem lookup_eq_ok_iff {entry : Entry} :
    files.lookup path = .ok entry ↔
      ∃ place, files.locate path = .ok place ∧ files.get? place = some entry ∧
        (Path.endsInSlash path = true → entry = .directory) := by
  rw [lookup, bind_eq_ok_iff]
  refine exists_congr fun place => and_congr_right fun _ => ?_
  cases files.get? place with
  | none => simp
  | some standing =>
    cases standing with
    | directory =>
      simp only [Except.ok.injEq, Option.some.injEq]
      exact ⟨fun h => ⟨h, fun _ => h.symm⟩, And.left⟩
    | file contents =>
      by_cases hslash : Path.endsInSlash path = true
      · simp only [hslash, if_true, reduceCtorEq, Option.some.injEq, forall_const, false_iff]
        rintro ⟨rfl, heq⟩
        cases heq
      · simp [hslash]

/-- Putting an entry where no directory is keeps the directories. -/
theorem keeps_insert (h : files.get? place ≠ some .directory) (entry : Entry) :
    Keeps files (files.insert place entry) where
  workingDirectory := rfl
  directory other hother := by
    rw [get?_insert (ne_nil_of_get? h), if_neg, hother]
    rintro rfl
    exact h hother

/-- **A file has been put at a path**: something other than a directory made way for it. -/
def Puts (before : FileSystem) (path : String) (contents : ByteArray) (after : FileSystem) : Prop :=
  ∃ place, before.locate path = .ok place ∧ Path.endsInSlash path = false ∧
    before.get? place ≠ some .directory ∧ after = before.insert place (.file contents)

/-- Creating a file puts an empty one at the path. -/
theorem createFile_eq_ok_iff :
    before.createFile path = .ok after ↔ before.Puts path .empty after := by
  rw [createFile, bind_eq_ok_iff]
  refine exists_congr fun place => and_congr_right fun _ => ?_
  cases hslash : Path.endsInSlash path with
  | true => simp
  | false =>
    cases before.get? place with
    | none => simp [pure, Except.pure, eq_comm]
    | some entry =>
      cases entry with
      | directory => simp
      | file contents => simp [pure, Except.pure, eq_comm]

theorem insert_insert (first second : Entry) :
    (files.insert place first).insert place second = files.insert place second := by
  simp [insert, List.filter_filter]

/-- **Filling a file**: it is refused and changes nothing, or there is a file with the contents, or
with part of them if it fails halfway. -/
theorem fill_cases {contents : ByteArray} {result : Except OsError Unit}
    (h : before.fill path contents = (result, after)) :
    (∃ cause, result = .error cause ∧ after = before) ∨
      ∃ place kept, before.locate path = .ok place ∧ after = before.insert place (.file kept) ∧
        (result = .ok () → kept = contents) := by
  unfold fill at h
  split at h
  case h_1 place _ hplace =>
    have hwhole : (Except.ok (), before.insert place (.file contents)) = (result, after) →
        ∃ place kept, before.locate path = .ok place ∧ after = before.insert place (.file kept) ∧
          (result = .ok () → kept = contents) := fun h => by
      obtain ⟨rfl, rfl⟩ := Prod.mk.inj h
      exact ⟨place, contents, hplace, rfl, fun _ => rfl⟩
    split at h
    case h_1 => exact .inr (hwhole h)
    case h_2 =>
      split at h
      case isTrue => exact .inr (hwhole h)
      case isFalse =>
        obtain ⟨rfl, rfl⟩ := Prod.mk.inj h
        exact .inr ⟨place, _, hplace, rfl, fun hok => by cases hok⟩
  all_goals
    obtain ⟨rfl, rfl⟩ := Prod.mk.inj h
    exact .inl ⟨_, rfl, rfl⟩

/-- **A file that is made and filled** is there, and whole unless that failed. -/
theorem exists_puts_of_fill {created : FileSystem} {contents : ByteArray}
    {result : Except OsError Unit} (hcreate : before.createFile path = .ok created)
    (hfill : created.fill path contents = (result, after)) :
    ∃ kept, before.Puts path kept after ∧ (result = .ok () → kept = contents) := by
  obtain ⟨place, hplace, hslash, hfree, rfl⟩ := createFile_eq_ok_iff.1 hcreate
  obtain ⟨cause, rfl, rfl⟩ | ⟨place', kept, hplace', rfl, hwhole⟩ := fill_cases hfill
  · exact ⟨.empty, ⟨place, hplace, hslash, hfree, rfl⟩, fun hok => by cases hok⟩
  · have hsame := locate_of_keeps (keeps_insert hfree (.file .empty)) hplace
    obtain rfl := Except.ok.inj (hsame.symm.trans hplace')
    exact ⟨kept, ⟨place, hplace, hslash, hfree, insert_insert _ _⟩, hwhole⟩

/-- **Moving a file**: its place is cleared, and something other than a directory makes way for
it. -/
theorem exists_of_rename {source destination : String}
    (h : files.rename source destination = .ok after) :
    ∃ sourcePlace place contents, files.locate source = .ok sourcePlace ∧
      files.locate destination = .ok place ∧ endsInDots destination = false ∧
      Path.endsInSlash destination = false ∧ files.get? sourcePlace = some (.file contents) ∧
      files.get? place ≠ some .directory ∧
      after = (files.erase sourcePlace).insert place (.file contents) := by
  rw [rename] at h
  obtain ⟨sourcePlace, hsource, h⟩ := bind_eq_ok_iff.1 h
  obtain ⟨place, hplace, h⟩ := bind_eq_ok_iff.1 h
  split at h
  case isTrue => cases h
  case isFalse hdots =>
    obtain ⟨entry, hlookup, h⟩ := bind_eq_ok_iff.1 h
    obtain ⟨located, hlocated, hentry, -⟩ := lookup_eq_ok_iff.1 hlookup
    obtain rfl := Except.ok.inj (hsource.symm.trans hlocated)
    cases entry with
    | directory => cases h
    | file contents =>
      dsimp only at h
      split at h
      case isTrue => cases h
      case isFalse hslash =>
        refine ⟨sourcePlace, place, contents, hsource, hplace, by simpa using hdots,
          by simpa using hslash, hentry, ?_⟩
        split at h
        case h_1 => cases h
        case h_2 hfree => exact ⟨hfree, (Except.ok.inj h).symm⟩

/-- **Removing a file** clears its place. -/
theorem removeFile_eq_ok_iff :
    files.removeFile path = .ok after ↔
      ∃ place contents, files.locate path = .ok place ∧ files.lookup path = .ok (.file contents) ∧
        after = files.erase place := by
  rw [removeFile, bind_eq_ok_iff]
  constructor
  · rintro ⟨entry, hlookup, h⟩
    cases entry with
    | directory => cases h
    | file contents =>
      obtain ⟨place, hplace, h⟩ := bind_eq_ok_iff.1 h
      exact ⟨place, contents, hplace, hlookup, (Except.ok.inj h).symm⟩
  · rintro ⟨place, contents, hplace, hlookup, rfl⟩
    exact ⟨_, hlookup, bind_eq_ok_iff.2 ⟨place, hplace, rfl⟩⟩

theorem lookup_eq_notFound (hlocate : files.locate path = .ok place)
    (hnone : files.get? place = none) : files.lookup path = .error .notFound := by
  rw [lookup, hlocate]
  simp only [bind, Except.bind, hnone]

/-- Nothing is at a place that cannot be looked up, unless a slash asks for a directory. -/
theorem get?_eq_none_of_lookup {cause : OsError} (hlocate : files.locate path = .ok place)
    (hslash : Path.endsInSlash path = false) (h : files.lookup path = .error cause) :
    files.get? place = none := by
  cases hstands : files.get? place with
  | none => rfl
  | some entry =>
    have hlookup := lookup_eq_ok_iff.2 ⟨place, hlocate, hstands, by simp [hslash]⟩
    rw [h] at hlookup
    cases hlookup

end FileSystem

end Peephole

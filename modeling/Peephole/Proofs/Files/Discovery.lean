import Mathlib.Data.List.Perm.Basic
import Peephole.Proofs.Files.WellFormed

/-!
# Proofs/Files/Discovery — the pattern files that paths stand for

Discovery asks the files and changes nothing, so it is a function of them (`found`).  A directory
lists its names in some order; sorted they are the same in every order, and the paths come in the
order of the names.  A file whose path is too long is listed but cannot be looked up, and is left
out (`discover_leaves_out_long_path`).
-/

namespace Peephole

namespace FileSystem

variable {files other : FileSystem} {place : List String} {path name extension : String}

/-! ## The names in a directory -/

/-- The name that leads from a place to another. -/
def nameFrom (place other : List String) : Option String :=
  if other.dropLast = place then other.getLast? else none

/-- A name leads from a place to the place one below it. -/
theorem nameFrom_eq_some_iff {other : List String} :
    nameFrom place other = some name ↔ other = place ++ [name] := by
  rw [nameFrom]
  constructor
  · intro h
    split at h
    case isFalse => cases h
    case isTrue hplace =>
      obtain ⟨front, rfl⟩ := List.getLast?_eq_some_iff.1 h
      rw [← hplace, List.dropLast_concat]
  · rintro rfl
    rw [List.dropLast_concat, if_pos rfl, List.getLast?_concat]

/-- The names that lead further from a place. -/
def namesFrom (files : FileSystem) (place : List String) : List String :=
  (files.entries.map Prod.fst).filterMap (nameFrom place)

/-- The names from a place are those of the entries one below it. -/
theorem mem_namesFrom (hfiles : files.WellFormed) :
    name ∈ files.namesFrom place ↔ ∃ entry, files.get? (place ++ [name]) = some entry := by
  rw [namesFrom, List.mem_filterMap]
  simp only [nameFrom_eq_some_iff, hfiles.get?_eq_some_iff (List.concat_ne_nil _ _)]
  constructor
  · rintro ⟨found, hmem, rfl⟩
    obtain ⟨⟨found, entry⟩, hentry, rfl⟩ := List.mem_map.1 hmem
    exact ⟨entry, hentry⟩
  · rintro ⟨entry, hentry⟩
    exact ⟨_, List.mem_map_of_mem hentry, rfl⟩

theorem WellFormed.isName (hfiles : files.WellFormed) (h : name ∈ files.namesFrom place) :
    Path.IsName name := by
  obtain ⟨entry, hentry⟩ := (mem_namesFrom hfiles).1 h
  have hmem := (hfiles.get?_eq_some_iff (List.concat_ne_nil _ _)).1 hentry
  exact hfiles.places _ hmem name (by simp)

theorem nodup_namesFrom (hfiles : files.WellFormed) : (files.namesFrom place).Nodup := by
  refine hfiles.distinct.filterMap ?_
  intro first second name hfirst hsecond
  rw [nameFrom_eq_some_iff.1 hfirst, nameFrom_eq_some_iff.1 hsecond]

/-- A directory lists the names from its place. -/
theorem list_of_locate (hplace : files.locate path = .ok place)
    (hdirectory : files.get? place = some .directory) :
    files.list path = .ok (files.namesFrom place) := by
  have hlookup := lookup_eq_ok_iff.2 ⟨place, hplace, hdirectory, fun _ => rfl⟩
  rw [list, hplace, hlookup, namesFrom, List.filterMap_map]
  rfl

/-- The names that lead further from a place, in their order. -/
def sortedNames (files : FileSystem) (place : List String) : List String :=
  (files.namesFrom place).mergeSort fun a b => decide (a ≤ b)

theorem sortedNames_perm : (files.sortedNames place).Perm (files.namesFrom place) :=
  List.mergeSort_perm _ _

theorem pairwise_sortedNames : (files.sortedNames place).Pairwise (· ≤ ·) := by
  have hsorted : (files.sortedNames place).Pairwise fun a b => decide (a ≤ b) = true := by
    refine List.pairwise_mergeSort ?_ ?_ _
    · intro a b c hab hbc
      exact decide_eq_true (String.le_trans (of_decide_eq_true hab) (of_decide_eq_true hbc))
    · intro a b
      simpa using String.le_total a b
  exact hsorted.imp of_decide_eq_true

theorem pairwise_lt_sortedNames (hfiles : files.WellFormed) :
    (files.sortedNames place).Pairwise (· < ·) := by
  have hnodup : (files.sortedNames place).Nodup :=
    sortedNames_perm.nodup_iff.2 (nodup_namesFrom hfiles)
  exact (pairwise_sortedNames.and hnodup).imp fun h => Std.lt_of_le_of_ne h.1 h.2

/-! ## What paths lead to -/

/-- What a path is told to be is the type of the entry it leads to. -/
theorem stat_eq_ok_iff {type : FileType} :
    files.stat path = .ok type ↔ ∃ entry, files.lookup path = .ok entry ∧ entry.type = type := by
  rw [stat]
  cases files.lookup path with
  | error cause => simp [Except.map]
  | ok entry => simp [Except.map]

/-- A path is a directory if and only if the place it leads to is one. -/
theorem stat_eq_directory_iff :
    files.stat path = .ok .directory ↔
      ∃ place, files.locate path = .ok place ∧ files.get? place = some .directory := by
  rw [stat_eq_ok_iff]
  constructor
  · rintro ⟨entry, hlookup, htype⟩
    obtain ⟨place, hplace, hentry, -⟩ := lookup_eq_ok_iff.1 hlookup
    cases entry with
    | file contents => cases htype
    | directory => exact ⟨place, hplace, hentry⟩
  · rintro ⟨place, hplace, hentry⟩
    exact ⟨.directory, lookup_eq_ok_iff.2 ⟨place, hplace, hentry, fun _ => rfl⟩, rfl⟩

/-- Slashes at the end of a name change nothing for the place it leads to. -/
theorem locate_slashed (files : FileSystem) (hname : Path.IsName name) {count : Nat}
    (hshort : name.utf8ByteSize + count ≤ maxPathBytes) :
    files.locate (Path.slashed name count) = files.follow files.workingDirectory [name] := by
  have hnul : '\x00' ∉ (Path.slashed name count).toList := by
    simp [Path.toList_slashed, hname.no_nul, List.mem_replicate]
  have hempty : Path.slashed name count ≠ "" := by
    simp [Path.slashed, String.append_eq_empty_iff, hname.ne_empty]
  rw [locate, if_neg (by simpa using hnul), Path.utf8ByteSize_slashed, if_neg (by omega),
    if_neg hempty, Path.isAbsolute_slashed hname, Path.parts_slashed hname]
  rfl

/-- A name in a directory leads one below it, as long as the joined path is short enough. -/
theorem locate_join (hplace : files.locate path = .ok place)
    (hdirectory : files.get? place = some .directory) (hname : Path.IsName name)
    {found : List String} :
    files.locate (Path.join path name) = .ok found ↔
      found = place ++ [name] ∧ (Path.join path name).utf8ByteSize ≤ maxPathBytes := by
  obtain ⟨hnul, -, hempty, hfollow⟩ := locate_eq_ok_iff.1 hplace
  have hjoined : '\x00' ∉ (Path.join path name).toList := by
    have hno := hname.no_nul
    rw [Path.join]
    split <;> simp [hnul, hno]
  have hlast : files.follow place [name] = .ok found ↔ found = place ++ [name] := by
    rw [follow_cons_eq_ok_iff, enter, if_neg hname.ne_dot, if_neg hname.ne_dots, follow]
    simp [hdirectory, hname.short, eq_comm]
  rw [locate_eq_ok_iff, Path.isAbsolute_join hempty, Path.parts_join hempty hname,
    follow_append_eq_ok_iff]
  simp only [hfollow, Except.ok.injEq, exists_eq_left', hlast]
  exact ⟨fun h => ⟨h.2.2.2, h.2.1⟩, fun h => ⟨hjoined, h.2, Path.join_ne_empty hempty, h.1⟩⟩

/-- **A file in a directory is found by its path**, unless the path is too long. -/
theorem stat_join (hplace : files.locate path = .ok place)
    (hdirectory : files.get? place = some .directory) (hname : Path.IsName name) :
    files.stat (Path.join path name) = .ok .file ↔
      (∃ contents, files.get? (place ++ [name]) = some (.file contents)) ∧
        (Path.join path name).utf8ByteSize ≤ maxPathBytes := by
  obtain ⟨-, -, hempty, -⟩ := locate_eq_ok_iff.1 hplace
  have hslash := Path.endsInSlash_join hempty hname
  rw [stat_eq_ok_iff]
  constructor
  · rintro ⟨entry, hlookup, htype⟩
    obtain ⟨found, hfound, hentry, -⟩ := lookup_eq_ok_iff.1 hlookup
    obtain ⟨rfl, hshort⟩ := (locate_join hplace hdirectory hname).1 hfound
    cases entry with
    | directory => cases htype
    | file contents => exact ⟨⟨contents, hentry⟩, hshort⟩
  · rintro ⟨⟨contents, hentry⟩, hshort⟩
    have hfound := (locate_join hplace hdirectory hname).2 ⟨rfl, hshort⟩
    exact ⟨_, lookup_eq_ok_iff.2 ⟨_, hfound, hentry, by simp [hslash]⟩, rfl⟩

/-! ## What a path stands for -/

/-- Whether a path leads to a file with an extension. -/
def isSource (files : FileSystem) (extension path : String) : Bool :=
  files.stat path matches .ok .file && hasExtension path extension

/-- A source is a file with the extension. -/
theorem isSource_iff : files.isSource extension path = true ↔
    files.stat path = .ok .file ∧ hasExtension path extension = true := by
  rw [isSource, Bool.and_eq_true]
  refine and_congr_left' ?_
  split
  case h_1 hstat => simp [hstat]
  case h_2 hstat => simpa using hstat

/-- The pattern files in the directory at a place, by the path that leads there. -/
def sourcesIn (files : FileSystem) (extension path : String) (place : List String) : List String :=
  ((files.sortedNames place).map (Path.join path)).filter (files.isSource extension)

/-- The pattern files that a path stands for. -/
def sources (files : FileSystem) (extension path : String) : Except OsError (List String) := do
  match ← files.stat path with
  | .file => return [path]
  | .directory => return files.sourcesIn extension path (← files.locate path)

/-- The pattern files that a path stands for: a file stands for itself, and a directory for its
own files with the extension, in the order of their paths. -/
inductive StandsFor (files : FileSystem) (extension path : String) : List String → Prop
  | file (h : files.stat path = .ok .file) : StandsFor files extension path [path]
  | directory {place sources : List String} (hplace : files.locate path = .ok place)
      (hdirectory : files.get? place = some .directory)
      (hsorted : sources.Pairwise Path.Precedes) (honce : sources.Nodup)
      (hmem : ∀ source, source ∈ sources ↔ ∃ name contents, source = Path.join path name ∧
        files.get? (place ++ [name]) = some (.file contents) ∧
        Path.EndsInExtension name (Path.withoutDots extension) ∧
        source.utf8ByteSize ≤ maxPathBytes) : StandsFor files extension path sources

/-- The sources in a directory stand in the order of their paths. -/
theorem pairwise_sourcesIn (hfiles : files.WellFormed) (hpath : path ≠ "") :
    (files.sourcesIn extension path place).Pairwise Path.Precedes := by
  have hname : ∀ name ∈ files.sortedNames place, Path.IsName name :=
    fun name hmem => hfiles.isName (sortedNames_perm.mem_iff.1 hmem)
  refine (List.pairwise_map.2 ((pairwise_lt_sortedNames hfiles).imp_of_mem ?_)).filter _
  intro first second hfirst hsecond hlt
  exact Path.precedes_join hpath (hname first hfirst) (hname second hsecond) hlt

/-- **The sources in a directory** are its files with the extension, under paths that are short
enough. -/
theorem mem_sourcesIn (hfiles : files.WellFormed) (hplace : files.locate path = .ok place)
    (hdirectory : files.get? place = some .directory) {source : String} :
    source ∈ files.sourcesIn extension path place ↔
      ∃ name contents, source = Path.join path name ∧
        files.get? (place ++ [name]) = some (.file contents) ∧
        Path.EndsInExtension name (Path.withoutDots extension) ∧
        source.utf8ByteSize ≤ maxPathBytes := by
  obtain ⟨-, -, hempty, -⟩ := locate_eq_ok_iff.1 hplace
  rw [sourcesIn, List.mem_filter, List.mem_map, isSource_iff]
  constructor
  · rintro ⟨⟨name, hmem, rfl⟩, hstat, hextension⟩
    have hname := hfiles.isName (sortedNames_perm.mem_iff.1 hmem)
    obtain ⟨⟨contents, hentry⟩, hshort⟩ := (stat_join hplace hdirectory hname).1 hstat
    exact ⟨name, contents, rfl, hentry,
      (Path.hasExtension_join hempty hname extension).1 hextension, hshort⟩
  · rintro ⟨name, contents, rfl, hentry, hextension, hshort⟩
    have hmem : name ∈ files.namesFrom place := (mem_namesFrom hfiles).2 ⟨_, hentry⟩
    have hname := hfiles.isName hmem
    exact ⟨⟨name, sortedNames_perm.mem_iff.2 hmem, rfl⟩,
      (stat_join hplace hdirectory hname).2 ⟨⟨contents, hentry⟩, hshort⟩,
      (Path.hasExtension_join hempty hname extension).2 hextension⟩

/-- What is found for a path is what the path stands for. -/
theorem standsFor_of_sources (hfiles : files.WellFormed) {found : List String}
    (h : files.sources extension path = .ok found) : files.StandsFor extension path found := by
  obtain ⟨type, htype, h⟩ := bind_eq_ok_iff.1 h
  cases type with
  | file =>
    obtain rfl := Except.ok.inj h
    exact .file htype
  | directory =>
    obtain ⟨place, hplace, hdirectory⟩ := stat_eq_directory_iff.1 htype
    obtain ⟨-, -, hempty, -⟩ := locate_eq_ok_iff.1 hplace
    obtain ⟨located, hlocated, h⟩ := bind_eq_ok_iff.1 h
    obtain rfl := Except.ok.inj (hplace.symm.trans hlocated)
    obtain rfl := Except.ok.inj h
    have hsorted : (files.sourcesIn extension path place).Pairwise Path.Precedes :=
      pairwise_sourcesIn hfiles hempty
    exact .directory hplace hdirectory hsorted (hsorted.imp Path.Precedes.ne)
      fun source => mem_sourcesIn hfiles hplace hdirectory

/-- A path that leads nowhere stands for nothing, and every other path for something. -/
theorem sources_eq_error_iff {cause : OsError} :
    files.sources extension path = .error cause ↔ files.stat path = .error cause := by
  rw [sources, bind_eq_error_iff]
  refine or_iff_left ?_
  rintro ⟨type, htype, h⟩
  cases type with
  | file => cases h
  | directory =>
    obtain ⟨place, hplace, -⟩ := stat_eq_directory_iff.1 htype
    rw [hplace] at h
    cases h

/-! ## Paths in order -/

/-- The pattern files that paths stand for, or the first path that leads nowhere. -/
def found (files : FileSystem) (extension : String) :
    List String → Except (String × OsError) (List String)
  | [] => .ok []
  | path :: paths => do
    let sources ← (files.sources extension path).mapError (path, ·)
    let more ← files.found extension paths
    return sources ++ more

/-- **Paths are searched one after another.** -/
theorem found_append (paths more : List String) :
    files.found extension (paths ++ more) = (do
      let sources ← files.found extension paths
      let others ← files.found extension more
      return sources ++ others) := by
  induction paths with
  | nil =>
    cases hmore : files.found extension more with
    | error failure => simp [found, hmore, bind, Except.bind]
    | ok others => simp [found, hmore, bind, Except.bind, pure, Except.pure]
  | cons path paths ih =>
    rw [List.cons_append, found, found, ih]
    simp only [bind_assoc, pure_bind, List.append_assoc]

theorem mapError_eq_ok_iff {sources : List String} :
    (files.sources extension path).mapError (path, ·) = .ok sources ↔
      files.sources extension path = .ok sources := by
  cases files.sources extension path <;> simp [Except.mapError]

theorem mapError_eq_error_iff {first : String} {cause : OsError} :
    (files.sources extension first).mapError (first, ·) = .error (path, cause) ↔
      first = path ∧ files.sources extension first = .error cause := by
  cases files.sources extension first <;> simp [Except.mapError]

/-- What is found for some paths is what is found for each, one behind the other. -/
theorem found_eq_ok_iff {paths sources : List String} :
    files.found extension paths = .ok sources ↔ ∃ lists,
      List.Forall₂ (fun path list => files.sources extension path = .ok list) paths lists ∧
        sources = lists.flatten := by
  induction paths generalizing sources with
  | nil => simp [found, eq_comm]
  | cons path paths ih =>
    rw [found, bind_eq_ok_iff]
    constructor
    · rintro ⟨list, hlist, h⟩
      obtain ⟨more, hmore, h⟩ := bind_eq_ok_iff.1 h
      obtain ⟨lists, hlists, rfl⟩ := ih.1 hmore
      obtain rfl := Except.ok.inj h
      exact ⟨list :: lists, .cons (mapError_eq_ok_iff.1 hlist) hlists, rfl⟩
    · rintro ⟨lists, hlists, rfl⟩
      cases hlists with
      | cons hlist hrest =>
        refine ⟨_, mapError_eq_ok_iff.2 hlist, ?_⟩
        exact bind_eq_ok_iff.2 ⟨_, ih.2 ⟨_, hrest, rfl⟩, rfl⟩

/-- A path leads to a file or a directory. -/
def LeadsSomewhere (files : FileSystem) (path : String) : Prop :=
  ∃ type, files.stat path = .ok type

/-- A path leads somewhere if and only if its sources can be listed. -/
theorem leadsSomewhere_iff (extension : String) :
    files.LeadsSomewhere path ↔ ∃ sources, files.sources extension path = .ok sources := by
  cases hsources : files.sources extension path with
  | error cause => simp [LeadsSomewhere, sources_eq_error_iff.1 hsources]
  | ok sources =>
    refine iff_of_true ?_ ⟨sources, rfl⟩
    obtain ⟨type, htype, -⟩ := bind_eq_ok_iff.1 hsources
    exact ⟨type, htype⟩

/-- Discovery fails at the first path that leads nowhere, for the reason that it does. -/
theorem found_eq_error_iff {paths : List String} {cause : OsError} :
    files.found extension paths = .error (path, cause) ↔ ∃ before after,
      paths = before ++ path :: after ∧ (∀ earlier ∈ before, files.LeadsSomewhere earlier) ∧
        files.stat path = .error cause := by
  induction paths with
  | nil => simp [found]
  | cons first paths ih =>
    rw [found, bind_eq_error_iff]
    constructor
    · rintro (hfirst | ⟨list, hlist, h⟩)
      · obtain ⟨rfl, hcause⟩ := mapError_eq_error_iff.1 hfirst
        exact ⟨[], paths, rfl, by simp, sources_eq_error_iff.1 hcause⟩
      · obtain hmore | ⟨more, -, h⟩ := bind_eq_error_iff.1 h
        · obtain ⟨before, after, rfl, hbefore, hstat⟩ := ih.1 hmore
          have hleads := (leadsSomewhere_iff extension).2 ⟨list, mapError_eq_ok_iff.1 hlist⟩
          exact ⟨first :: before, after, rfl, List.forall_mem_cons.2 ⟨hleads, hbefore⟩, hstat⟩
        · cases h
    · rintro ⟨before, after, heq, hbefore, hstat⟩
      cases before with
      | nil =>
        obtain ⟨rfl, rfl⟩ := List.cons.inj heq
        exact .inl (mapError_eq_error_iff.2 ⟨rfl, sources_eq_error_iff.2 hstat⟩)
      | cons earlier before =>
        obtain ⟨rfl, rfl⟩ := List.cons.inj heq
        obtain ⟨hleads, hbefore⟩ := List.forall_mem_cons.1 hbefore
        obtain ⟨list, hlist⟩ := (leadsSomewhere_iff extension).1 hleads
        refine .inr ⟨list, mapError_eq_ok_iff.2 hlist, bind_eq_error_iff.2 (.inl ?_)⟩
        exact ih.2 ⟨before, after, rfl, hbefore, hstat⟩

/-! ## The order of the entries -/

/-- The same entries in another order. -/
structure Reordered (files other : FileSystem) : Prop where
  entries : other.entries.Perm files.entries
  workingDirectory : other.workingDirectory = files.workingDirectory

namespace Reordered

variable (h : Reordered files other) (hfiles : files.WellFormed)
include h

theorem wellFormed (hfiles : files.WellFormed) : other.WellFormed where
  workingDirectory := h.workingDirectory ▸ hfiles.workingDirectory
  places entry hmem := hfiles.places entry (h.entries.mem_iff.1 hmem)
  distinct := (h.entries.map Prod.fst).nodup_iff.2 hfiles.distinct

/-- The names at a place do not depend on the order of the entries. -/
theorem sortedNames_eq (place : List String) :
    other.sortedNames place = files.sortedNames place := by
  -- A list has one sorted permutation, so the order of the names does not matter.
  refine List.Perm.eq_of_pairwise (fun a b _ _ => String.le_antisymm) pairwise_sortedNames
    pairwise_sortedNames ?_
  have hnames : (other.namesFrom place).Perm (files.namesFrom place) :=
    (h.entries.map Prod.fst).filterMap _
  exact sortedNames_perm.trans (hnames.trans sortedNames_perm.symm)

include hfiles

/-- What is at a place does not depend on the order of the entries. -/
theorem get?_eq (place : List String) : other.get? place = files.get? place := by
  by_cases hplace : place = []
  · rw [hplace]
    rfl
  · refine Option.ext fun entry => ?_
    rw [(h.wellFormed hfiles).get?_eq_some_iff hplace, hfiles.get?_eq_some_iff hplace,
      h.entries.mem_iff]

/-- Where a path leads does not depend on the order of the entries. -/
theorem follow_eq (place parts : List String) :
    other.follow place parts = files.follow place parts := by
  induction parts generalizing place with
  | nil => rfl
  | cons part parts ih =>
    rw [follow, follow, h.get?_eq hfiles]
    simp only [ih]

theorem locate_eq (path : String) : other.locate path = files.locate path := by
  rw [locate, locate, h.workingDirectory, h.follow_eq hfiles]

theorem stat_eq (path : String) : other.stat path = files.stat path := by
  simp only [stat, lookup, h.locate_eq hfiles, h.get?_eq hfiles]

/-- The sources of a path do not depend on the order of the entries. -/
theorem sources_eq (extension path : String) :
    other.sources extension path = files.sources extension path := by
  have hsource : other.isSource extension = files.isSource extension := by
    funext path
    rw [isSource, isSource, h.stat_eq hfiles]
  simp only [sources, sourcesIn, h.stat_eq hfiles, h.locate_eq hfiles, h.sortedNames_eq, hsource]

/-- **The order of the entries is of no account.** -/
theorem found_eq (extension : String) (paths : List String) :
    other.found extension paths = files.found extension paths := by
  induction paths with
  | nil => rfl
  | cons path paths ih => rw [found, found, ih, h.sources_eq hfiles]

end Reordered

end FileSystem

/-! ## Discovery -/

section Run

variable (workspace : Workspace) (extension : String)

/-- The sources among some names are those of their paths that are sources; nothing changes. -/
theorem run_sourcesAmong (directory : String) (names : List String) :
    (sourcesAmong directory extension names : StateM Workspace _).run workspace
      = ((names.map (Path.join directory)).filter (workspace.files.isSource extension), workspace)
    := by
  induction names with
  | nil => rfl
  | cons name names ih =>
    have hstat : (Host.stat (Path.join directory name) : StateM Workspace _).run workspace
        = (workspace.files.stat (Path.join directory name), workspace) := rfl
    rw [sourcesAmong, StateT.run_bind, hstat, List.map_cons, List.filter_cons]
    show StateT.run (sourcesAmong directory extension names >>= _) workspace = _
    rw [StateT.run_bind, ih]
    show StateT.run (if workspace.files.isSource extension (Path.join directory name) then _ else _)
      workspace = _
    split <;> rfl

/-- Looking for the sources of a path finds them, and changes nothing but the log. -/
theorem run_sourcesOf (path : String) :
    ∃ events, (sourcesOf path extension : StateM Workspace _).run workspace
      = (workspace.files.sources extension path, { workspace with events }) := by
  have hstat : (Host.stat path : StateM Workspace _).run workspace
      = (workspace.files.stat path, workspace) := rfl
  rw [sourcesOf, StateT.run_bind, hstat, FileSystem.sources]
  cases htype : workspace.files.stat path with
  | error cause => exact ⟨workspace.events, rfl⟩
  | ok type =>
    cases type with
    | file => exact ⟨workspace.events, rfl⟩
    | directory =>
      obtain ⟨place, hplace, hdirectory⟩ := FileSystem.stat_eq_directory_iff.1 htype
      have hlist : (Host.list path : StateM Workspace _).run workspace
          = (.ok (workspace.files.namesFrom place), workspace) :=
        congrArg (·, workspace) (FileSystem.list_of_locate hplace hdirectory)
      have hamong := run_sourcesAmong workspace extension path
        (workspace.files.sortedNames place)
      show ∃ events, StateT.run (Host.list path >>= _) workspace = _
      rw [StateT.run_bind, hlist, hplace]
      show ∃ events, StateT.run (sourcesAmong path extension (workspace.files.sortedNames place)
        >>= _) workspace = _
      rw [StateT.run_bind, hamong]
      exact ⟨_, rfl⟩

/-- **Discovery is a function of the files, and leaves them as they are.** -/
theorem run_discover (paths : List String) :
    ∃ events, (discover extension paths : StateM Workspace _).run workspace
      = (workspace.files.found extension paths, { workspace with events }) := by
  induction paths generalizing workspace with
  | nil => exact ⟨workspace.events, rfl⟩
  | cons path paths ih =>
    obtain ⟨events, hfirst⟩ := run_sourcesOf workspace extension path
    rw [discover, StateT.run_bind, hfirst, FileSystem.found]
    cases workspace.files.sources extension path with
    | error cause => exact ⟨events, rfl⟩
    | ok sources =>
      obtain ⟨events', hmore⟩ := ih { workspace with events }
      refine ⟨events', ?_⟩
      show StateT.run (discover extension paths >>= _) { workspace with events } = _
      rw [StateT.run_bind, hmore]
      cases workspace.files.found extension paths with
      | error failure => rfl
      | ok more => rfl

end Run

/-- **What discovery finds.**  It fails at the first path that leads nowhere.  Otherwise it finds,
path by path, what each stands for.  The order in which the files are listed is of no account. -/
theorem discover_finds_sources (extension : String) (paths : List String) (workspace : Workspace)
    (hfiles : workspace.files.WellFormed) :
    (∀ path cause,
      ((discover extension paths : StateM Workspace _).run workspace).1 = .error (path, cause) ↔
        ∃ before after, paths = before ++ path :: after ∧
          (∀ earlier ∈ before, workspace.files.LeadsSomewhere earlier) ∧
          workspace.files.stat path = .error cause) ∧
    ((∀ path ∈ paths, workspace.files.LeadsSomewhere path) →
      ∃ lists, List.Forall₂ (workspace.files.StandsFor extension) paths lists ∧
        ((discover extension paths : StateM Workspace _).run workspace).1 = .ok lists.flatten) ∧
    (∀ more, ((discover extension (paths ++ more) : StateM Workspace _).run workspace).1 = do
      let sources ← ((discover extension paths : StateM Workspace _).run workspace).1
      let others ← ((discover extension more : StateM Workspace _).run workspace).1
      return sources ++ others) ∧
    ∀ other, workspace.files.Reordered other →
      ((discover extension paths : StateM Workspace _).run { workspace with files := other }).1
        = ((discover extension paths : StateM Workspace _).run workspace).1 := by
  have hrun : ∀ workspace paths, ((discover extension paths : StateM Workspace _).run workspace).1
      = workspace.files.found extension paths := by
    intro workspace paths
    obtain ⟨events, h⟩ := run_discover workspace extension paths
    rw [h]
  simp only [hrun]
  refine ⟨fun path cause => FileSystem.found_eq_error_iff, ?_, FileSystem.found_append paths,
    fun other hother => hother.found_eq hfiles extension paths⟩
  intro hleads
  cases hfound : workspace.files.found extension paths with
  | error failure =>
    obtain ⟨before, after, rfl, -, hstat⟩ := FileSystem.found_eq_error_iff.1 hfound
    obtain ⟨type, htype⟩ := hleads failure.1 (by simp)
    rw [hstat] at htype
    cases htype
  | ok sources =>
    obtain ⟨lists, hlists, rfl⟩ := FileSystem.found_eq_ok_iff.1 hfound
    exact ⟨lists, hlists.imp fun path list => FileSystem.standsFor_of_sources hfiles, rfl⟩

/-! ## Listings -/

/-- A directory that lists its names out of order. -/
def Listing.files : FileSystem where
  entries := [(["d"], .directory), (["d", "b.pat"], .file ⟨#[]⟩), (["d", "a.pat"], .file ⟨#[]⟩),
    (["d", "n.pat"], .directory), (["d", "a.txt"], .file ⟨#[]⟩), (["x"], .file ⟨#[]⟩)]
  workingDirectory := []

theorem Listing.leadsSomewhere : ∀ path ∈ ["d", "x"], Listing.files.LeadsSomewhere path :=
  List.forall_mem_cons.2 ⟨⟨.directory, rfl⟩, List.forall_mem_singleton.2 ⟨.file, rfl⟩⟩

/-- A listing in which both paths lead somewhere, and its sources. -/
theorem discover_finds_sources_of_listing :
    Listing.files.WellFormed ∧ (∀ path ∈ ["d", "x"], Listing.files.LeadsSomewhere path) ∧
      ∃ lists, List.Forall₂ (Listing.files.StandsFor ".pat") ["d", "x"] lists ∧
        ((discover ".pat" ["d", "x"] : StateM Workspace _).run (.ofFiles Listing.files)).1
          = .ok lists.flatten := by
  have hfiles : Listing.files.WellFormed := by decide
  have hfinds := discover_finds_sources ".pat" ["d", "x"] (.ofFiles Listing.files) hfiles
  exact ⟨hfiles, Listing.leadsSomewhere, hfinds.2.1 Listing.leadsSomewhere⟩

namespace LongPath

/-- A path of 4086 bytes. -/
def directory : String := Path.slashed "d" 4085

/-- A directory with an empty pattern file in it. -/
def files : FileSystem where
  entries := [(["d"], .directory), (["d", "peephole-rules.pat"], .file ⟨#[]⟩)]
  workingDirectory := []

theorem locate_directory : files.locate directory = .ok ["d"] :=
  files.locate_slashed (by decide) (by decide)

/-- The name of the pattern file makes the path too long. -/
theorem maxPathBytes_lt_join :
    FileSystem.maxPathBytes < (Path.join directory "peephole-rules.pat").utf8ByteSize := by
  rw [Path.join]
  split
  · rw [String.utf8ByteSize_append, directory, Path.utf8ByteSize_slashed]
    decide
  · rw [String.utf8ByteSize_append, String.utf8ByteSize_append, directory,
      Path.utf8ByteSize_slashed]
    decide

/-- The directory leads to a pattern file, but stands for none. -/
theorem sources_directory : files.sources "pat" directory = .ok [] := by
  have hfiles : files.WellFormed := by decide
  have hstat : files.stat directory = .ok .directory :=
    FileSystem.stat_eq_directory_iff.2 ⟨["d"], locate_directory, rfl⟩
  obtain ⟨list, hlist⟩ := (FileSystem.leadsSomewhere_iff "pat").1 ⟨.directory, hstat⟩
  rw [hlist, Except.ok.injEq, List.eq_nil_iff_forall_not_mem]
  intro source hsource
  cases FileSystem.standsFor_of_sources hfiles hlist with
  | file h =>
    rw [hstat] at h
    cases h
  | directory hplace _ _ _ hmem =>
    obtain rfl := Except.ok.inj (locate_directory.symm.trans hplace)
    obtain ⟨name, contents, hjoin, hentry, -, hshort⟩ := (hmem source).1 hsource
    rw [hfiles.get?_eq_some_iff (List.concat_ne_nil _ _)] at hentry
    obtain ⟨hname, -⟩ : name = "peephole-rules.pat" ∧ contents = ⟨#[]⟩ := by
      simpa [files] using hentry
    rw [hjoin, hname] at hshort
    exact absurd hshort (Nat.not_le_of_lt maxPathBytes_lt_join)

end LongPath

/-- **A pattern file whose path is too long is left out**, although its directory lists it. -/
theorem discover_leaves_out_long_path :
    LongPath.files.WellFormed ∧ LongPath.files.locate LongPath.directory = .ok ["d"] ∧
      LongPath.files.get? ["d", "peephole-rules.pat"] = some (.file ⟨#[]⟩) ∧
      Path.EndsInExtension "peephole-rules.pat" (Path.withoutDots "pat") ∧
      ((discover "pat" [LongPath.directory] : StateM Workspace _).run
        (.ofFiles LongPath.files)).1 = .ok [] := by
  refine ⟨by decide, LongPath.locate_directory, rfl, ⟨"peephole-rules", by decide⟩, ?_⟩
  obtain ⟨events, hrun⟩ := run_discover (.ofFiles LongPath.files) "pat" [LongPath.directory]
  rw [hrun]
  exact FileSystem.found_eq_ok_iff.2 ⟨[[]], .cons LongPath.sources_directory .nil, rfl⟩

end Peephole

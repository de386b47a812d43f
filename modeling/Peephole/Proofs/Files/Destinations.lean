import Mathlib.Data.List.TakeWhile
import Peephole.Proofs.Files.Turns

/-!
# Proofs/Files/Destinations — what becomes of the outputs and the inputs of a batch

A destination goes by the name of its source, so two sources can have one destination, and a
destination or its temporary file can be a source.  A turn that succeeds delivers a file at its
destination, and one that compiles borrows the place of its temporary file; nothing else changes,
and no directory comes or goes, so that paths lead where they led all along (`SameDirectories`).

A destination is named `….c` and a temporary file `….tmp`, so what is delivered can only be lost to
what is delivered there later (`batch_output_stands`).
-/

namespace Peephole

namespace Path

/-! ## The last part of a path -/

/-- Parts are split at each slash. -/
theorem splitParts_slash (part cs more : List Char) :
    splitParts part (cs ++ '/' :: more) = splitParts part cs ++ splitParts [] more := by
  induction cs generalizing part with
  | nil => simp [splitParts]
  | cons c cs ih =>
    rw [List.cons_append, splitParts, splitParts]
    split
    case isTrue => rw [ih, List.cons_append]
    case isFalse => rw [ih]

/-- Characters are what stands before the last of some and what stands behind it. -/
theorem reverse_dropWhile_append (p : Char → Bool) (cs : List Char) :
    (cs.reverse.dropWhile p).reverse ++ (cs.reverse.takeWhile p).reverse = cs := by
  rw [← List.reverse_append, List.takeWhile_append_dropWhile, List.reverse_reverse]

/-- What stands behind the last slash of a path. -/
def lastName (path : String) : String :=
  String.ofList (path.toList.reverse.takeWhile (· ≠ '/')).reverse

/-- The last part of a path is its last name. -/
theorem exists_splitParts (path : String) :
    ∃ front, splitParts [] path.toList = front ++ [lastName path] := by
  have hname : '/' ∉ (path.toList.reverse.takeWhile (· ≠ '/')).reverse := by
    intro hmem
    simpa using List.mem_takeWhile_imp (List.mem_reverse.1 hmem)
  have hpath := reverse_dropWhile_append (· ≠ '/') path.toList
  have hlast := splitParts_of_no_slash hname []
  rw [List.reverse_nil, List.nil_append] at hlast
  rw [← hpath]
  cases hdrop : path.toList.reverse.dropWhile (· ≠ '/') with
  | nil => exact ⟨[], hlast⟩
  | cons c rest =>
    have hslash := List.head?_dropWhile_not (· ≠ '/') path.toList.reverse
    rw [hdrop] at hslash
    obtain rfl : c = '/' := by simpa using hslash
    rw [List.reverse_cons, List.append_assoc, List.singleton_append, splitParts_slash, hlast]
    exact ⟨_, rfl⟩

/-- **A path that does not end in a slash ends in a name.** -/
theorem exists_parts {path : String} {c : Char} (h : path.toList.getLast? = some c)
    (hc : c ≠ '/') :
    (∃ front, parts path = front ++ [lastName path]) ∧
      (lastName path).toList.getLast? = some c := by
  obtain ⟨rest, hrest⟩ : ∃ rest, path.toList.reverse = c :: rest := by
    rw [List.getLast?_eq_head?_reverse, List.head?_eq_some_iff] at h
    exact h
  have hlast : (lastName path).toList.getLast? = some c := by
    simp [lastName, hrest, hc]
  refine ⟨?_, hlast⟩
  obtain ⟨front, hfront⟩ := exists_splitParts path
  refine ⟨front.filter (· ≠ ""), ?_⟩
  rw [parts, hfront, List.filter_append, List.filter_singleton]
  have hne : lastName path ≠ "" := by
    intro hempty
    rw [hempty] at hlast
    cases hlast
  simp [hne]

/-! ## Destinations -/

/-- A path that ends in neither a slash nor `/.` keeps its end. -/
theorem dropEnd_of_ne {c : Char} {rest : List Char} (hc : c ≠ '/')
    (h : ∀ more, c :: rest ≠ '.' :: '/' :: more) : dropEnd (c :: rest) = c :: rest := by
  rw [dropEnd]
  · rintro more ⟨rfl, -⟩
    exact hc rfl
  · exact fun more heq => h more heq

/-- The file name of a path is its last part, if it does not end in a slash or in `/.`. -/
theorem cut?_of_dropEnd {path : String}
    (h : dropEnd path.toList.reverse = path.toList.reverse) :
    cut? path = none ∧ lastName path ∈ ["", ".", ".."] ∨
      ∃ cut, cut? path = some cut ∧ cut.name = lastName path := by
  rw [cut?, h]
  split
  case isTrue hname =>
    have hlast : lastName path = "" ∨ lastName path = "." ∨ lastName path = ".." := hname
    exact .inl ⟨rfl, by simpa using hlast⟩
  case isFalse => exact .inr ⟨_, rfl, rfl⟩

/-- A path without a file name ends in a slash or in dots. -/
theorem endsInDots_of_cut? {path : String} (h : cut? path = none)
    (hslash : endsInSlash path = false) : FileSystem.endsInDots path = true := by
  cases hc : path.toList.getLast? with
  | none =>
    rw [List.getLast?_eq_none_iff, String.toList_eq_nil_iff] at hc
    rw [hc]
    decide
  | some c =>
    have hne : c ≠ '/' := by
      rintro rfl
      simp [endsInSlash, hc] at hslash
    obtain ⟨⟨front, hparts⟩, hlast⟩ := exists_parts hc hne
    obtain ⟨rest, hrest⟩ : ∃ rest, path.toList.reverse = c :: rest := by
      rw [List.getLast?_eq_head?_reverse, List.head?_eq_some_iff] at hc
      exact hc
    have hdots : lastName path = "." ∨ lastName path = ".." := by
      by_cases hdot : ∃ more, c :: rest = '.' :: '/' :: more
      · obtain ⟨more, hmore⟩ := hdot
        left
        rw [lastName, hrest, hmore]
        rfl
      · obtain ⟨-, hname⟩ | ⟨cut, hcut, -⟩ :=
          cut?_of_dropEnd (hrest ▸ dropEnd_of_ne hne (not_exists.1 hdot))
        · have hnonempty : lastName path ≠ "" := by
            intro hempty
            rw [hempty] at hlast
            cases hlast
          simpa [hnonempty] using hname
        · rw [h] at hcut
          cases hcut
    simpa [FileSystem.endsInDots, hparts] using hdots

/-- A path whose extension is changed ends in the new one, unless it has no file name. -/
theorem withExtension_cases (path : String) {extension : String} {c : Char}
    (h : extension.toList.getLast? = some c) :
    cut? (withExtension path extension) = none ∨
      (withExtension path extension).toList.getLast? = some c := by
  unfold withExtension setExtension
  cases hcut : cut? (dropExtension path) with
  | none => exact .inl hcut
  | some cut =>
    right
    simp [List.getLast?_cons, h]

/-- The file name of a path that ends in a character of names ends in it. -/
theorem getLast?_of_fileName? {path name : String} {c : Char} (h : path.toList.getLast? = some c)
    (hslash : c ≠ '/') (hdot : c ≠ '.') (hname : fileName? path = some name) :
    name.toList.getLast? = some c := by
  obtain ⟨rest, hrest⟩ : ∃ rest, path.toList.reverse = c :: rest := by
    rw [List.getLast?_eq_head?_reverse, List.head?_eq_some_iff] at h
    exact h
  have htrimmed : dropEnd (c :: rest) = c :: rest := by
    refine dropEnd_of_ne hslash ?_
    rintro more ⟨rfl, -⟩
    exact hdot rfl
  obtain ⟨hnone, -⟩ | ⟨cut, hcut, hlast⟩ := cut?_of_dropEnd (hrest ▸ htrimmed)
  · simp [fileName?, hnone] at hname
  · rw [fileName?, hcut, Option.map_some, hlast] at hname
    obtain rfl := Option.some.inj hname
    exact (exists_parts h hslash).2

end Path

/-- A destination is the source with another extension, or its file name in a directory. -/
theorem Target.destination_cases {target : Target} {source destination : String}
    (h : target.destination? source = some destination) :
    destination = Path.withExtension source "c" ∨ ∃ path name,
      Path.fileName? (Path.withExtension source "c") = some name ∧
        destination = Path.join path name := by
  unfold destination? at h
  cases target with
  | stdout => simp at h
  | nextToSource => exact .inl (by simpa using h.symm)
  | directory path =>
    cases hname : Path.fileName? (Path.withExtension source "c") with
    | none => exact .inl (by simpa [hname] using h.symm)
    | some name => exact .inr ⟨path, name, rfl, by simpa [hname] using h.symm⟩

/-- **A destination that can be renamed to is named `….c`.** -/
theorem Target.getLast?_destination {target : Target} {source destination : String}
    (h : target.destination? source = some destination)
    (hslash : Path.endsInSlash destination = false)
    (hdots : FileSystem.endsInDots destination = false) :
    destination.toList.getLast? = some 'c' := by
  obtain hsource | ⟨path, name, hname, hjoin⟩ := destination_cases h
  · rw [hsource] at hslash hdots ⊢
    refine (@Path.withExtension_cases source "c" 'c' rfl).resolve_left fun hcut => ?_
    rw [Path.endsInDots_of_cut? hcut hslash] at hdots
    cases hdots
  · obtain hcut | hlast := @Path.withExtension_cases source "c" 'c' rfl
    · simp [Path.fileName?, hcut] at hname
    · have hend := Path.getLast?_of_fileName? hlast (by decide) (by decide) hname
      rw [hjoin, Path.join]
      split <;> simp [List.getLast?_cons, hend]

namespace FileSystem

variable {files before mid after : FileSystem} {path source destination : String}
  {place other : List String} {config : Config}

/-- A path that ends in a character of names leads to a place whose name ends in it. -/
theorem getLast?_of_locate {c : Char} (h : path.toList.getLast? = some c) (hslash : c ≠ '/')
    (hdot : c ≠ '.') (hlocate : files.locate path = .ok place) :
    ∃ directory name, place = directory ++ [name] ∧ name.toList.getLast? = some c := by
  obtain ⟨⟨front, hparts⟩, hlast⟩ := Path.exists_parts h hslash
  obtain ⟨-, -, -, hfollow⟩ := locate_eq_ok_iff.1 hlocate
  rw [hparts] at hfollow
  obtain ⟨directory, -, hname⟩ := follow_append_eq_ok_iff.1 hfollow
  have hdots : ∀ dots : String, dots.toList.getLast? = some '.' → Path.lastName path ≠ dots := by
    rintro dots hend heq
    rw [heq, hend] at hlast
    exact hdot (Option.some.inj hlast).symm
  refine ⟨directory, Path.lastName path, ?_, hlast⟩
  rw [follow_singleton hname, enter, if_neg (hdots "." rfl), if_neg (hdots ".." rfl)]

/-- **A temporary file is at no destination**: their names end otherwise. -/
theorem locate_temporary_ne_of_ends {temporary : String}
    (hends : destination.toList.getLast? = some 'c') (hplace : files.locate destination = .ok place)
    (htemporary : files.locate (temporary ++ ".tmp") = .ok other) : place ≠ other := by
  rintro rfl
  obtain ⟨directory, name, rfl, hname⟩ :=
    getLast?_of_locate hends (by decide) (by decide) hplace
  obtain ⟨directory', name', heq, hname'⟩ :=
    @getLast?_of_locate _ _ _ 'p' (by simp) (by decide) (by decide) htemporary
  obtain ⟨-, hsame⟩ := List.append_inj' heq rfl
  rw [← (List.cons.inj hsame).1, hname] at hname'
  exact absurd hname' (by decide)

/-! ## Directories -/

/-- **No directory is lost and none is made.** -/
structure SameDirectories (before after : FileSystem) : Prop where
  keeps : Keeps before after
  back : Keeps after before

theorem Keeps.refl (files : FileSystem) : Keeps files files := ⟨rfl, fun _ => id⟩

theorem Keeps.trans (h : Keeps before mid) (h' : Keeps mid after) : Keeps before after :=
  ⟨h'.workingDirectory.trans h.workingDirectory,
    fun place hplace => h'.directory place (h.directory place hplace)⟩

namespace SameDirectories

theorem refl (files : FileSystem) : SameDirectories files files := ⟨.refl files, .refl files⟩

theorem trans (h : SameDirectories before mid) (h' : SameDirectories mid after) :
    SameDirectories before after :=
  ⟨h.keeps.trans h'.keeps, h'.back.trans h.back⟩

/-- Paths lead to the same places. -/
theorem locate_iff (h : SameDirectories before after) :
    after.locate path = .ok place ↔ before.locate path = .ok place :=
  ⟨locate_of_keeps h.back, locate_of_keeps h.keeps⟩

/-- A path to a place that is as before finds what it found. -/
theorem lookup_eq (h : SameDirectories before after) (hplace : before.locate path = .ok place)
    (hsame : after.get? place = before.get? place) : after.lookup path = before.lookup path := by
  rw [lookup, lookup, hplace, h.locate_iff.2 hplace]
  simp only [bind, Except.bind, hsame]

end SameDirectories

/-- Saving a file adds no directory and removes none. -/
theorem Saves.sameDirectories {result : Except CompileError GeneratedFile}
    (h : before.Saves config source destination result after) : SameDirectories before after := by
  cases h with
  | refused => exact .refl before
  | uncreated _ hcreate =>
    rw [discard_of_uncreated hcreate]
    exact .refl before
  | unwritten _ hcreate hfill | unmoved _ hcreate hfill =>
    obtain ⟨_, hputs, -⟩ := exists_puts_of_fill hcreate hfill
    obtain ⟨temporary, -, hkeeps, hget⟩ := discard_of_puts hputs
    refine ⟨hkeeps, hkeeps.workingDirectory.symm, fun other hother => ?_⟩
    rw [hget] at hother
    split at hother
    case isTrue => cases hother
    case isFalse => exact hother
  | saved _ hcreate hfill hrename =>
    obtain ⟨_, hputs, -⟩ := exists_puts_of_fill hcreate hfill
    obtain ⟨temporary, place, -, -, hkeeps, -, -, hget⟩ := rename_of_puts hputs hrename
    refine ⟨hkeeps, hkeeps.workingDirectory.symm, fun other hother => ?_⟩
    rw [hget] at hother
    split at hother
    case isTrue => cases hother
    case isFalse =>
      split at hother
      case isTrue => cases hother
      case isFalse => exact hother

/-- Where a C file that was saved is. -/
theorem Saves.exists_place {file : GeneratedFile}
    (h : before.Saves config source destination (.ok file) after) :
    ∃ place, before.compiled config source = .ok file ∧ before.locate destination = .ok place ∧
      Path.endsInSlash destination = false ∧ endsInDots destination = false := by
  cases h with
  | saved hcompiled hcreate hfill hrename =>
    obtain ⟨_, hputs, -⟩ := exists_puts_of_fill hcreate hfill
    obtain ⟨-, place, -, hplace, -, hslash, -⟩ := rename_of_puts hputs hrename
    obtain ⟨-, -, -, -, -, hdots, -⟩ := exists_of_rename hrename
    exact ⟨place, hcompiled, hplace, hslash, hdots⟩

/-- Nothing changes where no C file is saved and no temporary file is written. -/
theorem Saves.get?_eq {result : Except CompileError GeneratedFile}
    (h : before.Saves config source destination result after)
    (hdestination : ∀ file, result = .ok file → before.locate destination ≠ .ok place)
    (htemporary : ∀ file, before.compiled config source = .ok file →
      before.locate (destination ++ ".tmp") ≠ .ok place) :
    after.get? place = before.get? place := by
  cases hcompiled : before.compiled config source with
  | error error => rw [(h.of_refused hcompiled).2]
  | ok file =>
    cases result with
    | ok saved =>
      refine h.of_ok.2.2.2 place ?_
      simpa using ⟨hdestination saved rfl, htemporary file hcompiled⟩
    | error error =>
      refine h.of_error.1.2 place ?_
      simpa using htemporary file hcompiled

end FileSystem

/-! ## What turns touch -/

namespace Target

/-- **Where the C file of a source goes.** -/
def LeadsTo (target : Target) (files : FileSystem) (source : String) (place : List String) : Prop :=
  ∃ destination, target.destination? source = some destination ∧
    files.locate destination = .ok place

/-- **Where the C file of a source is written first.** -/
def PassesThrough (target : Target) (files : FileSystem) (source : String) (place : List String) :
    Prop :=
  ∃ destination, target.destination? source = some destination ∧
    files.locate (destination ++ ".tmp") = .ok place

/-- Only standard output is no destination. -/
theorem eq_stdout_of_destination? {target : Target} {source : String}
    (h : target.destination? source = none) : target = .stdout := by
  unfold destination? at h
  cases target with
  | stdout => rfl
  | nextToSource => simp at h
  | directory path =>
    cases hname : Path.fileName? (Path.withExtension source "c") <;> simp [hname] at h

end Target

/-- A turn puts a C file at a place, or has to write one there first. -/
inductive Turn.Touches (config : Config) (target : Target) (files : FileSystem) (turn : Turn)
    (place : List String) : Prop where
  | delivered (hresult : turn.result = .ok ()) (hplace : target.LeadsTo files turn.source place)
  | borrowed {file : GeneratedFile} (hcompiled : turn.before.compiled config turn.source = .ok file)
    (hplace : target.PassesThrough files turn.source place)

section Touched

variable {config : Config} {target : Target} {start files : FileSystem}
  {source destination : String} {place : List String}

/-- A turn saves a C file where its target says. -/
theorem saves_of_turn (h : target.destination? source = some destination) :
    ∃ result, files.Saves config source destination result
        (turn config target files source).after ∧
      (turn config target files source).result = result.map fun _ => () := by
  obtain ⟨result, after, hrun⟩ : ∃ result after,
      (saveFile config source destination : StateM Workspace _).run (.ofFiles files)
        = (result, after) := ⟨_, _, rfl⟩
  have hturn : turn config target files source
      = ⟨source, files, result.map fun _ => (), after.files, after.output⟩ := by
    rw [turn, compileTo, h]
    dsimp only
    rw [StateT.run_bind, hrun]
    rfl
  rw [hturn]
  exact ⟨result, saves_of_saveFile config _ hrun, rfl⟩

variable (config target files source) in
/-- **A turn neither makes nor removes directories.** -/
theorem sameDirectories_turn : files.SameDirectories (turn config target files source).after := by
  cases hdestination : target.destination? source with
  | none =>
    obtain rfl := Target.eq_stdout_of_destination? hdestination
    rw [turn_stdout]
    exact .refl files
  | some destination =>
    obtain ⟨result, hsaves, -⟩ := saves_of_turn hdestination
    exact hsaves.sameDirectories

/-- **A turn leaves alone what it does not touch.** -/
theorem get?_turn (hstart : start.SameDirectories files)
    (h : ¬ (turn config target files source).Touches config target start place) :
    (turn config target files source).after.get? place = files.get? place := by
  cases hdestination : target.destination? source with
  | none =>
    obtain rfl := Target.eq_stdout_of_destination? hdestination
    rw [turn_stdout]
  | some destination =>
    obtain ⟨result, hsaves, hresult⟩ := saves_of_turn hdestination
    refine hsaves.get?_eq ?_ ?_
    · rintro file rfl hplace
      exact h (.delivered hresult ⟨destination, hdestination, hstart.locate_iff.1 hplace⟩)
    · intro file hcompiled hplace
      exact h (.borrowed hcompiled ⟨destination, hdestination, hstart.locate_iff.1 hplace⟩)

variable (config target files) in
theorem sameDirectories_turns (sources : List String) :
    files.SameDirectories (leftBy files (turns config target files sources)) := by
  induction sources generalizing files with
  | nil => exact .refl files
  | cons source sources ih => exact (sameDirectories_turn config target files source).trans (ih _)

/-- **A batch leaves alone what none of its turns touches.** -/
theorem get?_turns {sources : List String} (hstart : start.SameDirectories files)
    (h : ∀ turn ∈ turns config target files sources,
      ¬ turn.Touches config target start place) :
    (leftBy files (turns config target files sources)).get? place = files.get? place := by
  induction sources generalizing files with
  | nil => rfl
  | cons source sources ih =>
    rw [turns, List.forall_mem_cons] at h
    rw [turns, leftBy_cons, ih (hstart.trans (sameDirectories_turn ..)) h.2, get?_turn hstart h.1]

/-- **A file that was compiled is at its destination**, where nothing is written first. -/
theorem delivered_of_turn (h : target.destination? source = some destination)
    (hresult : (turn config target files source).result = .ok ()) :
    ∃ place file, files.locate destination = .ok place ∧
      files.compiled config source = .ok file ∧
      (turn config target files source).after.lookup destination
        = .ok (.file file.code.toUTF8) ∧
      ∀ other, ¬ target.PassesThrough files other place := by
  obtain ⟨result, hsaves, hsame⟩ := saves_of_turn h
  cases result with
  | error error =>
    rw [hsame] at hresult
    cases hresult
  | ok file =>
    obtain ⟨place, hcompiled, hplace, hslash, hdots⟩ := hsaves.exists_place
    refine ⟨place, file, hplace, hcompiled, hsaves.of_ok.1, ?_⟩
    rintro other ⟨destination', -, htemporary⟩
    exact FileSystem.locate_temporary_ne_of_ends (Target.getLast?_destination h hslash hdots) hplace
      htemporary rfl

/-- **What is at a place stays there** while no turn delivers there. -/
theorem lookup_turns {sources : List String} (hstart : start.SameDirectories files)
    (hplace : start.locate destination = .ok place)
    (hpasses : ∀ other, ¬ target.PassesThrough start other place)
    (h : ∀ turn ∈ turns config target files sources, turn.result = .ok () →
      ¬ target.LeadsTo start turn.source place) :
    (leftBy files (turns config target files sources)).lookup destination
      = files.lookup destination := by
  refine (sameDirectories_turns config target files sources).lookup_eq
    (hstart.locate_iff.2 hplace) (get?_turns hstart ?_)
  rintro turn hmem (⟨hresult, hleads⟩ | ⟨-, hthrough⟩)
  · exact h turn hmem hresult hleads
  · exact hpasses turn.source hthrough

/-- Compiling only looks at the file of the source. -/
theorem compiled_eq (hstart : start.SameDirectories files)
    (hplace : start.locate source = .ok place) (hsame : files.get? place = start.get? place) :
    files.compiled config source = start.compiled config source := by
  rw [FileSystem.compiled, FileSystem.compiled, FileSystem.readText, FileSystem.readText,
    hstart.lookup_eq hplace hsame]

section Parts

variable {sources : List String} {front back : List Turn} {last : Turn}

/-- **The C file of a turn is there at the end**, if no later turn delivers to its place. -/
theorem lookup_of_delivered (htarget : target ≠ .stdout)
    (h : turns config target files sources = front ++ last :: back)
    (hresult : last.result = .ok ()) :
    ∃ destination place file, target.destination? last.source = some destination ∧
      files.locate destination = .ok place ∧ last.before.compiled config last.source = .ok file ∧
      ((∀ later ∈ back, later.result = .ok () → ¬ target.LeadsTo files later.source place) →
        (leftBy files (turns config target files sources)).lookup destination
          = .ok (.file file.code.toUTF8)) := by
  obtain ⟨hfront, hlast, hback⟩ := of_turns_eq h
  have hstart : files.SameDirectories (leftBy files front) :=
    hfront ▸ sameDirectories_turns config target files _
  have hafter : files.SameDirectories last.after :=
    hstart.trans (hlast ▸ sameDirectories_turn config target _ last.source)
  cases hdestination : target.destination? last.source with
  | none => exact absurd (Target.eq_stdout_of_destination? hdestination) htarget
  | some destination =>
    rw [hlast] at hresult
    obtain ⟨place, file, hplace, hcompiled, hlookup, hpasses⟩ :=
      delivered_of_turn hdestination hresult
    rw [← hlast] at hlookup
    rw [hstart.locate_iff] at hplace
    refine ⟨destination, place, file, rfl, hplace, hlast ▸ hcompiled, fun hlater => ?_⟩
    rw [h, leftBy_append, leftBy_cons, ← hlookup, hback]
    refine lookup_turns hafter hplace ?_ (hback ▸ hlater)
    rintro other ⟨temporary, htemporary, hlocate⟩
    exact hpasses other ⟨temporary, htemporary, hstart.locate_iff.2 hlocate⟩

/-- A file that no earlier turn touches is compiled as it was before the batch. -/
theorem compiled_of_untouched (h : turns config target files sources = front ++ last :: back)
    (hplace : files.locate last.source = .ok place)
    (hearlier : ∀ earlier ∈ front, ¬ earlier.Touches config target files place) :
    last.before.compiled config last.source = files.compiled config last.source := by
  obtain ⟨hfront, hlast, -⟩ := of_turns_eq h
  have hbefore : last.before = leftBy files front := by
    rw [hlast]
    rfl
  rw [hfront] at hearlier hbefore
  rw [hbefore]
  exact compiled_eq (sameDirectories_turns config target files _) hplace
    (get?_turns (.refl _) hearlier)

end Parts

end Touched

/-- **What a batch puts at a destination stands**, unless a later file is put there.  The summary
counts the files that were compiled; each is, at the end, at its destination, if no file that is
compiled after it goes to the same place.  It is compiled from what was there before the batch, and
every file still is what it was, unless its place is where the C file of a source goes or is written
first. -/
theorem batch_output_stands {config : Config} {target : Target} {sources : List String}
    {before after : Workspace} {summary : Summary} (htarget : target ≠ .stdout)
    (h : (batch config target sources : StateM Workspace _).run before = (summary, after)) :
    summary.compiled
      = ((turns config target before.files sources).map Turn.result).countP Summary.isSuccess ∧
    (∀ front turn back, turns config target before.files sources = front ++ turn :: back →
      turn.result = .ok () →
      ∃ destination place file, target.destination? turn.source = some destination ∧
        before.files.locate destination = .ok place ∧
        turn.before.compiled config turn.source = .ok file ∧
        ((∀ later ∈ back, later.result = .ok () →
            ¬ target.LeadsTo before.files later.source place) →
          after.files.lookup destination = .ok (.file file.code.toUTF8))) ∧
    (∀ front turn back place,
      turns config target before.files sources = front ++ turn :: back →
      before.files.locate turn.source = .ok place →
      (∀ earlier ∈ front, ¬ earlier.Touches config target before.files place) →
      turn.before.compiled config turn.source = before.files.compiled config turn.source) ∧
    (∀ path place, before.files.locate path = .ok place →
      (∀ turn ∈ turns config target before.files sources,
        ¬ turn.Touches config target before.files place) →
      after.files.lookup path = before.files.lookup path) := by
  obtain ⟨events, hrun⟩ := run_batch config target before sources
  obtain ⟨rfl, rfl⟩ := Prod.mk.inj (h.symm.trans hrun)
  refine ⟨rfl, fun front turn back => lookup_of_delivered htarget,
    fun front turn back place => compiled_of_untouched, fun path place hplace htouched => ?_⟩
  exact (sameDirectories_turns config target before.files sources).lookup_eq hplace
    (get?_turns (.refl _) htouched)

namespace Collision

/-- The default settings, without the helpers at the front. -/
def config : Config := { Config.default with preamble := "" }

/-- Two directories with a file of the same name in each, a directory for their code, and a file
with the name of the temporary file of another. -/
def files : FileSystem :=
  [(["w", "d"], .directory), (["w", "x"], .directory), (["w", "y"], .directory),
    (["w", "x", "a.pat"], .file "pattern p: nop --> \x7b \x7d".toUTF8),
    (["w", "y", "a.pat"], .file "".toUTF8), (["w", "b.pat"], .file "".toUTF8),
    (["w", "b.c.tmp"], .file "".toUTF8)].foldl (fun files entry => files.insert entry.1 entry.2)
      (.ofWorkingDirectory ["w"])

/-- A batch of some sources with these files. -/
def ran (target : Target) (sources : List String) : Summary × Workspace :=
  (batch config target sources : StateM Workspace _).run (.ofFiles files)

/-- The turn of the first source in the directory. -/
def first : Turn := turn config (.directory "d") files "x/a.pat"

/-- The turn of the second source, with the files that the first one leaves. -/
def second : Turn := turn config (.directory "d") first.after "y/a.pat"

theorem turns_eq : turns config (.directory "d") files ["x/a.pat", "y/a.pat"]
    = [first] ++ second :: [] := rfl

theorem result_second : second.result = .ok () := by
  have hsuccess : Summary.isSuccess second.result = true := by decide +kernel
  cases hresult : second.result with
  | ok => rfl
  | error error =>
    rw [hresult] at hsuccess
    cases hsuccess

end Collision

/-- Of two files of the same name, the second is the one whose code is in the directory. -/
theorem batch_output_stands_second :
    ∃ destination file,
      Target.destination? (.directory "d") "y/a.pat" = some destination ∧
        Collision.second.before.compiled Collision.config "y/a.pat" = .ok file ∧
        (Collision.ran (.directory "d") ["x/a.pat", "y/a.pat"]).2.files.lookup destination
          = .ok (.file file.code.toUTF8) := by
  obtain ⟨-, hstands, -, -⟩ := batch_output_stands (by decide)
    (Prod.eta (Collision.ran (.directory "d") ["x/a.pat", "y/a.pat"])).symm
  obtain ⟨destination, place, file, hdestination, -, hcompiled, hlookup⟩ :=
    hstands _ _ _ Collision.turns_eq Collision.result_second
  exact ⟨destination, file, hdestination, hcompiled, hlookup fun later hmem => by cases hmem⟩

/-- **Code and pattern files can be lost.**  Both files of the same name are compiled, and the code
of the first is not at its destination; both of the other two are compiled, and the first of them,
which is named as the temporary file of the second, is gone. -/
theorem batch_output_lost :
    (Collision.ran (.directory "d") ["x/a.pat", "y/a.pat"]).1.compiled = 2 ∧
    Target.destination? (.directory "d") "x/a.pat" = some "d/a.c" ∧
    (Collision.files.compiled Collision.config "x/a.pat").toOption.isSome = true ∧
    ((Collision.ran (.directory "d") ["x/a.pat", "y/a.pat"]).2.files.readText "d/a.c").toOption
      ≠ (Collision.files.compiled Collision.config "x/a.pat").toOption.map GeneratedFile.code ∧
    (Collision.ran .nextToSource ["b.c.tmp", "b.pat"]).1.compiled = 2 ∧
    (Collision.files.readText "b.c.tmp").toOption = some "" ∧
    ((Collision.ran .nextToSource ["b.c.tmp", "b.pat"]).2.files.readText "b.c.tmp").toOption
      = none := by
  decide +kernel

end Peephole

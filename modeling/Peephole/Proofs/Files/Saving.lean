import Peephole.Batch
import Peephole.Proofs.Files.Places

/-!
# Proofs/Files/Saving — a C file is written whole or not at all

A C file is written to a temporary file beside its destination, and then moved there.  `Saves` says
all that can happen on the way to the files of a workspace: the source does not compile, the
temporary file cannot be made, it cannot be written or moved and is discarded, or all goes well.

So a destination holds the whole code or what it held before, and nothing but the destination and
its temporary file ever changes (`saveFile_all_or_nothing`).
-/

namespace Peephole

namespace FileSystem

/-- Outside of what some paths lead to, a file system is as before. -/
def SameBut (paths : List String) (before after : FileSystem) : Prop :=
  after.workingDirectory = before.workingDirectory ∧
    ∀ place, (∀ path ∈ paths, before.locate path ≠ .ok place) →
      after.get? place = before.get? place

/-- What a pattern file compiles to. -/
def compiled (config : Config) (files : FileSystem) (path : String) :
    Except CompileError GeneratedFile :=
  match files.readText path with
  | .error cause => .error (.io path cause)
  | .ok source => (compileText config source (Path.stem path) path).result

/-- The files without the one at a path, if there is one. -/
def discard (files : FileSystem) (path : String) : FileSystem :=
  match files.removeFile path with
  | .ok after => after
  | .error _ => files

/-! ## Saving, case by case -/

/-- **What can happen when a C file is saved**: the result, and the files afterwards. -/
inductive Saves (config : Config) (source destination : String) (before : FileSystem) :
    Except CompileError GeneratedFile → FileSystem → Prop where
  | refused {error : CompileError} (hcompiled : before.compiled config source = .error error) :
    Saves config source destination before (.error error) before
  | uncreated {file : GeneratedFile} {cause : OsError}
    (hcompiled : before.compiled config source = .ok file)
    (hcreate : before.createFile (destination ++ ".tmp") = .error cause) :
    Saves config source destination before (.error (.io destination cause))
      (before.discard (destination ++ ".tmp"))
  | unwritten {file : GeneratedFile} {created written : FileSystem} {cause : OsError}
    (hcompiled : before.compiled config source = .ok file)
    (hcreate : before.createFile (destination ++ ".tmp") = .ok created)
    (hfill : created.fill (destination ++ ".tmp") file.code.toUTF8 = (.error cause, written)) :
    Saves config source destination before (.error (.io destination cause))
      (written.discard (destination ++ ".tmp"))
  | unmoved {file : GeneratedFile} {created written : FileSystem} {cause : OsError}
    (hcompiled : before.compiled config source = .ok file)
    (hcreate : before.createFile (destination ++ ".tmp") = .ok created)
    (hfill : created.fill (destination ++ ".tmp") file.code.toUTF8 = (.ok (), written))
    (hrename : written.rename (destination ++ ".tmp") destination = .error cause) :
    Saves config source destination before (.error (.io destination cause))
      (written.discard (destination ++ ".tmp"))
  | saved {file : GeneratedFile} {created written after : FileSystem}
    (hcompiled : before.compiled config source = .ok file)
    (hcreate : before.createFile (destination ++ ".tmp") = .ok created)
    (hfill : created.fill (destination ++ ".tmp") file.code.toUTF8 = (.ok (), written))
    (hrename : written.rename (destination ++ ".tmp") destination = .ok after) :
    Saves config source destination before (.ok file) after

end FileSystem

section Run

variable {ε α : Type} (config : Config) (workspace : Workspace)

/-- Logging notices adds them to the events, in their order. -/
theorem run_notices (notices : List Notice) :
    (notices.forM fun notice => Host.log (.noticed notice) : StateM Workspace PUnit).run workspace
      = (⟨⟩, { workspace with events := workspace.events ++ notices.map .noticed }) := by
  induction notices generalizing workspace with
  | nil => rw [List.map_nil, List.append_nil]; rfl
  | cons notice notices ih =>
    have hnext := ih { workspace with events := workspace.events ++ [.noticed notice] }
    rw [List.append_assoc] at hnext
    exact hnext

/-- Running a computation hands on its result and logs its notices. -/
theorem run_logged (logged : Logged ε α) :
    (Host.run logged : StateM Workspace _).run workspace
      = (logged.result,
        { workspace with events := workspace.events ++ logged.notices.map .noticed }) := by
  have hnotices := run_notices workspace logged.notices
  rw [Host.run, StateT.run_bind, hnotices]
  rfl

/-- Compiling a file reads it and logs, and changes nothing. -/
theorem run_compileFile (path : String) :
    ∃ events, (compileFile config path : StateM Workspace _).run workspace
      = (workspace.files.compiled config path, { workspace with events }) := by
  have hrun : (compileFile config path : StateM Workspace _).run workspace
      = StateT.run (match workspace.files.readText path with
        | .error cause => pure (.error (.io path cause))
        | .ok source => Host.run (compileText config source (Path.stem path) path)) workspace :=
    rfl
  rw [hrun, FileSystem.compiled]
  cases workspace.files.readText path with
  | error cause => exact ⟨workspace.events, rfl⟩
  | ok source => exact ⟨_, run_logged workspace _⟩

/-- An operation on the files takes effect if it succeeds, and has none if it fails. -/
theorem run_change (act : FileSystem → Except OsError FileSystem) :
    (Workspace.change act).run workspace
      = match act workspace.files with
        | .ok files => (.ok (), { workspace with files })
        | .error cause => (.error cause, workspace) :=
  rfl

/-- Discarding a temporary file removes it if it is there. -/
theorem files_discardTemporary (path : String) :
    ((discardTemporary path : StateM Workspace _).run workspace).2.files
      = workspace.files.discard path := by
  have hstat : (Host.stat path : StateM Workspace _).run workspace
      = (workspace.files.stat path, workspace) := rfl
  rw [discardTemporary, StateT.run_bind, hstat, FileSystem.discard, FileSystem.stat]
  cases hlookup : workspace.files.lookup path with
  | error cause =>
    rw [FileSystem.removeFile, hlookup]
    rfl
  | ok entry =>
    have hremove : (Host.removeFile path : StateM Workspace _).run workspace = _ :=
      run_change workspace (·.removeFile path)
    show (StateT.run (Host.removeFile path >>= _ : StateM Workspace Unit) workspace).2.files = _
    rw [StateT.run_bind, hremove]
    cases workspace.files.removeFile path with
    | ok files => rfl
    | error cause => rfl

/-- A step that fails is the last one. -/
theorem run_step (step : StateM Workspace (Except OsError Unit))
    (next : Unit → ExceptT OsError (StateM Workspace) Unit) :
    (ExceptT.run (ExceptT.mk step >>= next)).run workspace
      = match step.run workspace with
        | (.error cause, left) => (.error cause, left)
        | (.ok (), left) => (next ()).run.run left := by
  rw [ExceptT.run_bind, ExceptT.run_mk, StateT.run_bind]
  obtain ⟨_ | _, left⟩ := step.run workspace
  · rfl
  · rfl

/-- The steps of writing through a temporary file, and the files that each leaves. -/
theorem run_writeThrough (temporary destination text : String) :
    (writeThrough temporary destination text : StateM Workspace _).run workspace
      = match workspace.files.createFile temporary with
        | .error cause => (.error cause, workspace)
        | .ok created =>
          match created.fill temporary text.toUTF8 with
          | (.error cause, written) => (.error cause, { workspace with files := written })
          | (.ok (), written) =>
            match written.rename temporary destination with
            | .error cause => (.error cause, { workspace with files := written })
            | .ok files => (.ok (), { workspace with files }) := by
  have hcreate : (Host.createFile temporary : StateM Workspace _).run workspace = _ :=
    run_change workspace (·.createFile temporary)
  rw [writeThrough, run_step, hcreate]
  cases workspace.files.createFile temporary with
  | error cause => rfl
  | ok created =>
    have hfill : (Host.writeText temporary text : StateM Workspace _).run
        { workspace with files := created }
        = ((created.fill temporary text.toUTF8).1,
          { workspace with files := (created.fill temporary text.toUTF8).2 }) := rfl
    dsimp only
    rw [run_step, hfill]
    obtain ⟨result, written⟩ := created.fill temporary text.toUTF8
    cases result with
    | error cause => rfl
    | ok =>
      refine (run_change { workspace with files := written }
        (·.rename temporary destination)).trans ?_
      dsimp only
      cases written.rename temporary destination with
      | error cause => rfl
      | ok files => rfl

/-- **Whatever happens when a C file is saved is one of five things.** -/
theorem saves_of_saveFile {source destination : String}
    {result : Except CompileError GeneratedFile} {after : Workspace}
    (h : (saveFile config source destination : StateM Workspace _).run workspace
      = (result, after)) :
    workspace.files.Saves config source destination result after.files := by
  obtain ⟨events, hcompile⟩ := run_compileFile config workspace source
  rw [saveFile, StateT.run_bind, hcompile] at h
  cases hcompiled : workspace.files.compiled config source with
  | error error =>
    rw [hcompiled] at h
    obtain ⟨rfl, rfl⟩ := Prod.mk.inj h
    exact .refused hcompiled
  | ok file =>
    rw [hcompiled] at h
    have hnext : (StateT.run (writeThrough (destination ++ ".tmp") destination file.code >>= _ :
        StateM Workspace (Except CompileError GeneratedFile)) { workspace with events })
        = (result, after) := h
    -- What is left behind where the code did not get to its destination.
    have hdiscard : ∀ {cause : OsError} {left : Workspace},
        (writeThrough (destination ++ ".tmp") destination file.code : StateM Workspace _).run
          { workspace with events } = (.error cause, left) →
        result = .error (.io destination cause) ∧
          after.files = left.files.discard (destination ++ ".tmp") := by
      intro cause left hthrough
      rw [StateT.run_bind, hthrough] at hnext
      refine ⟨(congrArg Prod.fst hnext).symm, ?_⟩
      rw [← files_discardTemporary]
      exact congrArg (·.2.files) hnext.symm
    have hthrough := run_writeThrough { workspace with events } (destination ++ ".tmp") destination
      file.code
    dsimp only at hthrough
    cases hcreate : workspace.files.createFile (destination ++ ".tmp") with
    | error cause =>
      rw [hcreate] at hthrough
      obtain ⟨rfl, hfiles⟩ := hdiscard hthrough
      rw [hfiles]
      exact .uncreated hcompiled hcreate
    | ok created =>
      rw [hcreate] at hthrough
      dsimp only at hthrough
      rcases hfill : created.fill (destination ++ ".tmp") file.code.toUTF8 with
        ⟨cause | _, written⟩
      · rw [hfill] at hthrough
        obtain ⟨rfl, hfiles⟩ := hdiscard hthrough
        rw [hfiles]
        exact .unwritten hcompiled hcreate hfill
      · rw [hfill] at hthrough
        dsimp only at hthrough
        cases hrename : written.rename (destination ++ ".tmp") destination with
        | error cause =>
          rw [hrename] at hthrough
          obtain ⟨rfl, hfiles⟩ := hdiscard hthrough
          rw [hfiles]
          exact .unmoved hcompiled hcreate hfill hrename
        | ok files =>
          rw [hrename] at hthrough
          rw [StateT.run_bind, hthrough] at hnext
          obtain ⟨rfl, rfl⟩ := Prod.mk.inj hnext
          exact .saved hcompiled hcreate hfill hrename

end Run

namespace FileSystem

/-! ## What is left -/

variable {before written after : FileSystem} {destination : String} {contents : ByteArray}

theorem endsInSlash_temporary (path : String) : Path.endsInSlash (path ++ ".tmp") = false := by
  simp [Path.endsInSlash]

/-- A temporary file that could not be made is none of those that can be removed. -/
theorem discard_of_uncreated {cause : OsError}
    (h : before.createFile (destination ++ ".tmp") = .error cause) :
    before.discard (destination ++ ".tmp") = before := by
  rw [discard]
  cases hremove : before.removeFile (destination ++ ".tmp") with
  | error cause => rfl
  | ok after =>
    obtain ⟨place, standing, hplace, hlookup, -⟩ := removeFile_eq_ok_iff.1 hremove
    obtain ⟨place', hplace', hstanding, -⟩ := lookup_eq_ok_iff.1 hlookup
    obtain rfl := Except.ok.inj (hplace.symm.trans hplace')
    have hcreate : before.createFile (destination ++ ".tmp") = .ok _ :=
      createFile_eq_ok_iff.2
        ⟨place, hplace, endsInSlash_temporary destination, by simp [hstanding], rfl⟩
    rw [h] at hcreate
    cases hcreate

/-- **A temporary file that was made and discarded** leaves its place empty, whatever was written
to it. -/
theorem discard_of_puts (h : before.Puts (destination ++ ".tmp") contents written) :
    ∃ temporary, before.locate (destination ++ ".tmp") = .ok temporary ∧
      Keeps before (written.discard (destination ++ ".tmp")) ∧
      ∀ place, (written.discard (destination ++ ".tmp")).get? place
        = if place = temporary then none else before.get? place := by
  obtain ⟨temporary, htemporary, hslash, hfree, rfl⟩ := h
  have hne := ne_nil_of_get? hfree
  have hkeeps := keeps_insert hfree (.file contents)
  have hstands : (before.insert temporary (.file contents)).get? temporary
      = some (.file contents) := by
    rw [get?_insert hne, if_pos rfl]
  have hlocate := locate_of_keeps hkeeps htemporary
  have hremove : (before.insert temporary (.file contents)).removeFile (destination ++ ".tmp")
      = .ok ((before.insert temporary (.file contents)).erase temporary) :=
    removeFile_eq_ok_iff.2 ⟨temporary, contents, hlocate,
      lookup_eq_ok_iff.2 ⟨temporary, hlocate, hstands, by simp [hslash]⟩, rfl⟩
  have hget := @get?_erase_insert before temporary hne (.file contents)
  rw [discard, hremove]
  refine ⟨temporary, htemporary, ⟨rfl, fun place hplace => ?_⟩, hget⟩
  rw [hget, if_neg, hplace]
  rintro rfl
  exact hfree hplace

/-- **A temporary file that was written and moved** leaves its place empty and its contents at the
destination. -/
theorem rename_of_puts (hputs : before.Puts (destination ++ ".tmp") contents written)
    (hrename : written.rename (destination ++ ".tmp") destination = .ok after) :
    ∃ temporary place, before.locate (destination ++ ".tmp") = .ok temporary ∧
      before.locate destination = .ok place ∧ Keeps before after ∧
      Path.endsInSlash destination = false ∧ place ≠ temporary ∧
      ∀ other, after.get? other = if other = place then some (.file contents)
        else if other = temporary then none else before.get? other := by
  obtain ⟨temporary, htemporary, -, hfree, rfl⟩ := hputs
  have hne := ne_nil_of_get? hfree
  have hkeeps := keeps_insert hfree (.file contents)
  obtain ⟨temporary', place, contents', htemporary', hplace, hdots, hslash, hstands, hfree', rfl⟩ :=
    exists_of_rename hrename
  have hlocate := locate_of_keeps hkeeps htemporary
  obtain rfl := Except.ok.inj (hlocate.symm.trans htemporary')
  rw [get?_insert hne, if_pos rfl] at hstands
  obtain rfl := Entry.file.inj (Option.some.inj hstands)
  have hapart := locate_temporary_ne hslash hdots hplace hlocate
  -- The written file is no directory, so the destination was found the same way before.
  have hback : Keeps (before.insert temporary (.file contents)) before := by
    refine ⟨rfl, fun other hother => ?_⟩
    rw [get?_insert hne] at hother
    split at hother
    case isTrue => cases hother
    case isFalse => exact hother
  have hget : ∀ other, (((before.insert temporary (.file contents)).erase temporary).insert place
      (.file contents)).get? other = if other = place then some (.file contents)
        else if other = temporary then none else before.get? other := by
    intro other
    rw [get?_insert (ne_nil_of_get? hfree'), get?_erase_insert hne]
  rw [get?_insert hne, if_neg hapart] at hfree'
  refine ⟨temporary, place, htemporary, locate_of_keeps hback hplace, ⟨rfl, ?_⟩, hslash, hapart,
    hget⟩
  intro other hother
  rw [hget, if_neg, if_neg, hother]
  · rintro rfl
    exact hfree hother
  · rintro rfl
    exact hfree' hother

section Outcome

variable {config : Config} {source : String}

/-- A C file that was saved is at its destination, and nothing else has changed. -/
theorem Saves.of_ok {file : GeneratedFile}
    (h : before.Saves config source destination (.ok file) after) :
    after.lookup destination = .ok (.file file.code.toUTF8) ∧
      after.lookup (destination ++ ".tmp") = .error .notFound ∧
      before.SameBut [destination, destination ++ ".tmp"] after := by
  cases h with
  | saved _ hcreate hfill hrename =>
    obtain ⟨_, hputs, hwhole⟩ := exists_puts_of_fill hcreate hfill
    obtain rfl := hwhole rfl
    obtain ⟨temporary, place, htemporary, hplace, hkeeps, hslash, hapart, hget⟩ :=
      rename_of_puts hputs hrename
    refine ⟨?_, ?_, hkeeps.workingDirectory, fun other hother => ?_⟩
    · exact lookup_eq_ok_iff.2 ⟨place, locate_of_keeps hkeeps hplace, by rw [hget, if_pos rfl],
        by simp [hslash]⟩
    · exact lookup_eq_notFound (locate_of_keeps hkeeps htemporary)
        (by rw [hget, if_neg hapart.symm, if_pos rfl])
    · rw [hget, if_neg, if_neg]
      · rintro rfl
        exact hother _ (by simp) htemporary
      · rintro rfl
        exact hother _ (by simp) hplace

/-- Nothing changes but the temporary file, and none is left that was not there. -/
def LeavesNoTemporary (destination : String) (before after : FileSystem) : Prop :=
  before.SameBut [destination ++ ".tmp"] after ∧
    ∀ cause, before.lookup (destination ++ ".tmp") = .error cause →
      after.lookup (destination ++ ".tmp") = .error cause

theorem LeavesNoTemporary.refl (destination : String) (files : FileSystem) :
    LeavesNoTemporary destination files files :=
  ⟨⟨rfl, fun _ _ => rfl⟩, fun _ => id⟩

/-- A temporary file that was made is gone once it is discarded. -/
theorem leavesNoTemporary_of_puts (h : before.Puts (destination ++ ".tmp") contents written) :
    LeavesNoTemporary destination before (written.discard (destination ++ ".tmp")) := by
  obtain ⟨temporary, htemporary, hkeeps, hget⟩ := discard_of_puts h
  refine ⟨⟨hkeeps.workingDirectory, fun place hplace => ?_⟩, fun cause hcause => ?_⟩
  · rw [hget, if_neg]
    rintro rfl
    exact hplace _ List.mem_cons_self htemporary
  · have hnone := get?_eq_none_of_lookup htemporary (endsInSlash_temporary destination) hcause
    rw [lookup_eq_notFound htemporary hnone] at hcause
    rw [← hcause]
    exact lookup_eq_notFound (locate_of_keeps hkeeps htemporary) (by rw [hget, if_pos rfl])

/-- **A failure leaves no temporary file behind**, at whatever step. -/
theorem Saves.of_error {error : CompileError}
    (h : before.Saves config source destination (.error error) after) :
    LeavesNoTemporary destination before after := by
  cases h with
  | refused => exact .refl destination before
  | uncreated _ hcreate =>
    rw [discard_of_uncreated hcreate]
    exact .refl destination before
  | unwritten _ hcreate hfill | unmoved _ hcreate hfill =>
    obtain ⟨_, hputs, -⟩ := exists_puts_of_fill hcreate hfill
    exact leavesNoTemporary_of_puts hputs

/-- A source that does not compile changes nothing. -/
theorem Saves.of_refused {result : Except CompileError GeneratedFile} {error : CompileError}
    (h : before.Saves config source destination result after)
    (herror : before.compiled config source = .error error) :
    result = .error error ∧ after = before := by
  cases h with
  | refused hcompiled => exact ⟨hcompiled.symm.trans herror, rfl⟩
  | uncreated hcompiled | unwritten hcompiled | unmoved hcompiled | saved hcompiled =>
    rw [hcompiled] at herror
    cases herror

end Outcome

end FileSystem

/-- **A C file is written whole or not at all.**  If all goes well, the destination is a file that
holds the code, the temporary file is gone, and nothing else has changed.  If not, nothing has
changed but the temporary file, which is not there unless it was there before; and if the source
does not compile, it has not changed either. -/
theorem saveFile_all_or_nothing {config : Config} {source destination : String}
    {before after : Workspace} {result : Except CompileError GeneratedFile}
    (h : (saveFile config source destination : StateM Workspace _).run before = (result, after)) :
    (∀ file, result = .ok file →
      after.files.lookup destination = .ok (.file file.code.toUTF8) ∧
      after.files.lookup (destination ++ ".tmp") = .error .notFound ∧
      before.files.SameBut [destination, destination ++ ".tmp"] after.files) ∧
    (∀ error, result = .error error →
      before.files.SameBut [destination ++ ".tmp"] after.files ∧
      ∀ cause, before.files.lookup (destination ++ ".tmp") = .error cause →
        after.files.lookup (destination ++ ".tmp") = .error cause) ∧
    ∀ error, before.files.compiled config source = .error error →
      result = .error error ∧ after.files = before.files := by
  have hsaves := saves_of_saveFile config before h
  refine ⟨fun file hfile => ?_, fun error herror => ?_, fun error => hsaves.of_refused⟩
  · rw [hfile] at hsaves
    exact hsaves.of_ok
  · rw [herror] at hsaves
    exact hsaves.of_error

namespace Small

/-- A working directory with a pattern file and a directory in it. -/
def workspace : Workspace :=
  .ofFiles (((FileSystem.ofWorkingDirectory ["w"]).insert ["w", "a.pat"]
    (.file "pattern p: nop --> \x7b \x7d".toUTF8)).insert ["w", "d"] .directory)

/-- The pattern file saved at a destination. -/
def saved (destination : String) : Except CompileError GeneratedFile × Workspace :=
  (saveFile .default "a.pat" destination : StateM Workspace _).run workspace

theorem isSome_saved : (saved "d/a.c").1.toOption.isSome = true := by decide +kernel

theorem isSome_refused : (saved "d").1.toOption.isSome = false := by decide +kernel

end Small

/-- The pattern file is saved in the directory; its code cannot take the place of the directory, and
then nothing has changed. -/
theorem saveFile_all_or_nothing_small :
    (∃ file, (Small.saved "d/a.c").1 = .ok file ∧
      (Small.saved "d/a.c").2.files.lookup "d/a.c" = .ok (.file file.code.toUTF8)) ∧
    (Small.saved "d").2.files.lookup "d.tmp" = .error .notFound ∧
      (Small.saved "d").2.files.get? ["w", "d"] = some .directory := by
  constructor
  · cases hfile : (Small.saved "d/a.c").1 with
    | error error =>
      have hsome := Small.isSome_saved
      rw [hfile] at hsome
      cases hsome
    | ok file =>
      have hsaved := (saveFile_all_or_nothing (Prod.eta (Small.saved "d/a.c")).symm).1 file hfile
      exact ⟨file, rfl, hsaved.1⟩
  · cases hfile : (Small.saved "d").1 with
    | ok file =>
      have hsome := Small.isSome_refused
      rw [hfile] at hsome
      cases hsome
    | error error =>
      obtain ⟨⟨-, hsame⟩, htemporary⟩ :=
        (saveFile_all_or_nothing (Prod.eta (Small.saved "d")).symm).2.1 error hfile
      have hlocate : Small.workspace.files.locate ("d" ++ ".tmp") = .ok ["w", "d.tmp"] := rfl
      refine ⟨htemporary .notFound rfl, ?_⟩
      rw [hsame ["w", "d"] (by rw [List.forall_mem_singleton, hlocate]; decide)]
      rfl

-- With room for part of the code only, the temporary file is made and then discarded.
example :
    let full : Workspace :=
      { Small.workspace with files := { Small.workspace.files with capacity := some 60 } }
    let bare : Config := { Config.default with preamble := "" }
    let run := (saveFile bare "a.pat" "d/a.c" : StateM Workspace _).run full
    run.1.toOption.isSome = false ∧
      (run.2.files.lookup "d/a.c.tmp").toOption.isSome = false ∧ run.2.files.used = 22 := by
  decide +kernel

end Peephole

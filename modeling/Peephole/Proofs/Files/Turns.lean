import Mathlib.Data.List.Induction
import Peephole.Proofs.Files.Saving

/-!
# Proofs/Files/Turns — a batch, file by file

Each file of a batch has its turn.  A turn looks at the files it starts with and at nothing that was
printed or logged before it (`LooksAtFiles`), so a batch is a list of turns, each of which starts
with the files that the one before it leaves (`turns`), and its summary counts their results
(`run_batch`).

A file that does not compile leaves the files as they are and prints nothing.  So all other turns
are the same without it (`batch_passes_over_failures`).
-/

namespace Peephole

/-! ## What a computation looks at -/

namespace Workspace

/-- What happened in one workspace, behind what had happened in another. -/
def behind (earlier later : Workspace) : Workspace :=
  ⟨later.files, earlier.output ++ later.output, earlier.events ++ later.events⟩

theorem behind_assoc (first second third : Workspace) :
    (first.behind second).behind third = first.behind (second.behind third) := by
  simp [behind, String.append_assoc]

theorem behind_ofFiles (workspace : Workspace) :
    workspace.behind (.ofFiles workspace.files) = workspace := by
  simp [behind, ofFiles]

end Workspace

/-- **A computation looks at the files only**: what it prints and logs goes behind the rest. -/
def LooksAtFiles {α : Type} (act : StateM Workspace α) : Prop :=
  ∀ workspace : Workspace, act.run workspace =
    ((act.run (.ofFiles workspace.files)).1,
      workspace.behind (act.run (.ofFiles workspace.files)).2)

namespace LooksAtFiles

variable {α β : Type}

theorem pure (value : α) : LooksAtFiles (Pure.pure value) := by
  intro workspace
  show (value, workspace) = (value, workspace.behind (.ofFiles workspace.files))
  rw [Workspace.behind_ofFiles]

/-- A sequence looks at the files only, if each of its steps does. -/
theorem bind {act : StateM Workspace α} {next : α → StateM Workspace β} (h : LooksAtFiles act)
    (hnext : ∀ value, LooksAtFiles (next value)) : LooksAtFiles (act >>= next) := by
  intro workspace
  have hrun : ∀ start, (act >>= next).run start = (next (act.run start).1).run (act.run start).2 :=
    fun _ => rfl
  rw [hrun, hrun, h workspace, hnext, hnext _ (act.run (.ofFiles workspace.files)).2,
    ← Workspace.behind_assoc]
  rfl

/-- A step that may fail, and what is done behind it. -/
theorem step {act : StateM Workspace (Except OsError Unit)}
    {next : Unit → ExceptT OsError (StateM Workspace) Unit} (h : LooksAtFiles act)
    (hnext : LooksAtFiles (next ()).run) :
    LooksAtFiles (ExceptT.run (ExceptT.mk act >>= next)) := by
  rw [ExceptT.run_bind, ExceptT.run_mk]
  refine bind h fun result => ?_
  cases result with
  | error cause => exact pure _
  | ok => exact hnext

theorem query (ask : FileSystem → α) : LooksAtFiles (Workspace.query ask) := by
  intro workspace
  show (ask workspace.files, workspace)
    = (ask workspace.files, workspace.behind (.ofFiles workspace.files))
  rw [Workspace.behind_ofFiles]

/-- An operation on the files depends on nothing else, and neither does its effect. -/
theorem change (act : FileSystem → Except OsError FileSystem) :
    LooksAtFiles (Workspace.change act) := by
  intro workspace
  rw [run_change, run_change, Workspace.ofFiles]
  dsimp only
  cases act workspace.files with
  | ok files => simp [Workspace.behind]
  | error cause => simp [Workspace.behind]

theorem attempt (act : FileSystem → Except OsError Unit × FileSystem) :
    LooksAtFiles (Workspace.attempt act) := by
  intro workspace
  show (_, _) = ((act workspace.files).1, workspace.behind ⟨(act workspace.files).2, "", []⟩)
  simp [Workspace.behind]

theorem print (text : String) : LooksAtFiles (Host.print text : StateM Workspace Unit) := by
  intro workspace
  show ((), _) = ((), workspace.behind ⟨workspace.files, "" ++ text, []⟩)
  simp [Workspace.behind]

theorem log (event : Event) : LooksAtFiles (Host.log event : StateM Workspace Unit) := by
  intro workspace
  show ((), _) = ((), workspace.behind ⟨workspace.files, "", [] ++ [event]⟩)
  simp [Workspace.behind]

theorem run {ε : Type} (logged : Logged ε α) :
    LooksAtFiles (Host.run logged : StateM Workspace _) := by
  intro workspace
  rw [run_logged, run_logged, Workspace.ofFiles]
  simp [Workspace.behind]

/-! ## Compiling looks at the files only -/

section Files

variable (config : Config) (target : Target) (source destination temporary text : String)

theorem compileFile : LooksAtFiles (Peephole.compileFile config source : StateM Workspace _) := by
  refine bind (query _) fun read => ?_
  cases read with
  | error cause => exact pure _
  | ok text => exact run _

theorem writeThrough :
    LooksAtFiles (Peephole.writeThrough temporary destination text : StateM Workspace _) := by
  unfold Peephole.writeThrough
  exact step (change _) (step (attempt _) (step (pure _) (change (·.rename temporary destination))))

theorem discardTemporary :
    LooksAtFiles (Peephole.discardTemporary temporary : StateM Workspace _) := by
  refine bind (query _) fun found => ?_
  cases found with
  | error cause => exact pure _
  | ok type =>
    refine bind (change _) fun removed => ?_
    cases removed with
    | ok => exact pure _
    | error cause => exact log _

/-- Saving a file looks at the files only. -/
theorem saveFile :
    LooksAtFiles (Peephole.saveFile config source destination : StateM Workspace _) := by
  refine bind (compileFile config source) fun compiled => ?_
  cases compiled with
  | error error => exact pure _
  | ok file =>
    refine bind (writeThrough destination _ file.code) fun written => ?_
    cases written with
    | ok => exact bind (log _) fun _ => pure _
    | error cause => exact bind (discardTemporary _) fun _ => pure _

/-- Compiling one source of a batch looks at the files only. -/
theorem compileTo :
    LooksAtFiles (Peephole.compileTo config target source : StateM Workspace _) := by
  unfold Peephole.compileTo
  cases target.destination? source with
  | some destination => exact bind (saveFile config source destination) fun _ => pure _
  | none =>
    refine bind (compileFile config source) fun compiled => ?_
    cases compiled with
    | error error => exact pure _
    | ok file => exact bind (print _) fun _ => pure _

end Files

end LooksAtFiles

/-! ## Turns -/

/-- The turn of a pattern file in a batch. -/
structure Turn where
  source : String
  /-- The files it starts with. -/
  before : FileSystem
  result : Except CompileError Unit
  /-- The files it leaves. -/
  after : FileSystem
  printed : String

/-- The files that turns leave, if there were such files before. -/
def leftBy (files : FileSystem) (turns : List Turn) : FileSystem :=
  turns.foldl (fun _ turn => turn.after) files

section Turns

variable (config : Config) (target : Target)

/-- The turn of a pattern file, with the files as they are. -/
def turn (files : FileSystem) (source : String) : Turn :=
  let run := (compileTo config target source : StateM Workspace _).run (.ofFiles files)
  ⟨source, files, run.1, run.2.files, run.2.output⟩

/-- The turns of a batch.  Each starts with the files that the one before it leaves. -/
def turns (files : FileSystem) : List String → List Turn
  | [] => []
  | source :: sources =>
    let first := turn config target files source
    first :: turns first.after sources

variable {config target} {files : FileSystem} {sources : List String} {front back : List Turn}
  {last : Turn}

@[simp] theorem leftBy_nil : leftBy files [] = files := rfl

@[simp] theorem leftBy_cons : leftBy files (last :: back) = leftBy last.after back := rfl

/-- What some turns leave is what the later ones leave of what the earlier ones left. -/
theorem leftBy_append : leftBy files (front ++ back) = leftBy (leftBy files front) back :=
  List.foldl_append

variable (config target files) in
theorem map_source_turns (sources : List String) :
    (turns config target files sources).map Turn.source = sources := by
  induction sources generalizing files with
  | nil => rfl
  | cons source sources ih => exact congrArg (source :: ·) (ih _)

variable (config target files) in
theorem length_turns (sources : List String) :
    (turns config target files sources).length = sources.length := by
  rw [← List.length_map Turn.source, map_source_turns]

variable (config target) in
/-- Later sources have their turns on the files that the earlier ones leave. -/
theorem turns_append (files : FileSystem) (first second : List String) :
    turns config target files (first ++ second)
      = turns config target files first
        ++ turns config target (leftBy files (turns config target files first)) second := by
  induction first generalizing files with
  | nil => rfl
  | cons source first ih => exact congrArg (_ :: ·) (ih _)

/-- **A batch up to a turn, the turn, and the batch behind it.** -/
theorem of_turns_eq (h : turns config target files sources = front ++ last :: back) :
    front = turns config target files (front.map Turn.source) ∧
      last = turn config target (leftBy files front) last.source ∧
      back = turns config target last.after (back.map Turn.source) := by
  induction front generalizing files sources with
  | nil =>
    obtain _ | ⟨source, sources⟩ := sources
    · cases h
    · obtain ⟨rfl, rfl⟩ := List.cons.inj h
      exact ⟨rfl, rfl, by rw [map_source_turns]⟩
  | cons first front ih =>
    obtain _ | ⟨source, sources⟩ := sources
    · cases h
    · obtain ⟨rfl, hmore⟩ := List.cons.inj h
      obtain ⟨hfront, hlast, hback⟩ := ih hmore
      exact ⟨congrArg (_ :: ·) hfront, hlast, hback⟩

end Turns

/-! ## Summaries -/

namespace Summary

/-- Whether a file was compiled. -/
def isSuccess : Except CompileError Unit → Bool
  | .ok _ => true
  | .error _ => false

/-- A failure that is the fault of the pattern file. -/
def isDataFailure : Except CompileError Unit → Bool
  | .ok _ => false
  | .error error => error.isDataError

/-- A failure of the file system. -/
def isIoFailure : Except CompileError Unit → Bool
  | .ok _ => false
  | .error error => !error.isDataError

/-- How many results there are of each sort. -/
def ofResults (results : List (Except CompileError Unit)) : Summary :=
  ⟨results.countP isSuccess, results.countP isDataFailure, results.countP isIoFailure⟩

/-- A result is counted once, wherever it stands. -/
theorem ofResults_middle (front back : List (Except CompileError Unit))
    (result : Except CompileError Unit) :
    ofResults (front ++ result :: back) = (ofResults (front ++ back)).add result := by
  cases result with
  | ok =>
    simp [ofResults, add, isSuccess, isDataFailure, isIoFailure, List.countP_cons, Nat.add_assoc]
  | error error =>
    cases herror : error.isDataError <;>
      simp [ofResults, add, isSuccess, isDataFailure, isIoFailure, herror, Nat.add_assoc]

/-- Adding results one by one counts them. -/
theorem foldl_add_empty (results : List (Except CompileError Unit)) :
    results.foldl add .empty = ofResults results := by
  induction results using List.reverseRecOn with
  | nil => rfl
  | append_singleton results result ih =>
    rw [List.foldl_concat, ih, ofResults_middle, List.append_nil]

/-- Each result is counted once. -/
theorem total_add (summary : Summary) (result : Except CompileError Unit) :
    (summary.add result).total = summary.total + 1 := by
  cases result with
  | ok =>
    simp only [add, total]
    omega
  | error error =>
    rw [add]
    split <;> simp only [total] <;> omega

/-- A summary counts each result. -/
theorem total_ofResults (results : List (Except CompileError Unit)) :
    (ofResults results).total = results.length := by
  induction results with
  | nil => rfl
  | cons result results ih =>
    rw [← List.nil_append (result :: results), ofResults_middle, total_add, List.nil_append, ih,
      List.nil_append, List.length_cons]

/-- A batch exits with success exactly if it had files and none of them failed. -/
theorem exitCode_eq_ok_iff {summary : Summary} :
    summary.exitCode = .ok ↔
      summary.total ≠ 0 ∧ summary.dataErrors = 0 ∧ summary.ioErrors = 0 := by
  unfold exitCode
  split
  case isTrue hnone => simp [hnone]
  case isFalse hsome =>
    split
    case isTrue hdata => simp [Nat.pos_iff_ne_zero.1 hdata]
    case isFalse hdata =>
      split
      case isTrue hio => simp [Nat.pos_iff_ne_zero.1 hio]
      case isFalse hio => simp [hsome, Nat.eq_zero_of_not_pos hdata, Nat.eq_zero_of_not_pos hio]

theorem add_io (summary : Summary) (path : String) (cause : OsError) :
    summary.add (.error (.io path cause)) = { summary with ioErrors := summary.ioErrors + 1 } := rfl

/-- Failures that are not those of the host are counted as data errors. -/
theorem add_of_not_io (summary : Summary) {error : CompileError}
    (h : ¬ ∃ path cause, error = .io path cause) :
    summary.add (.error error) = { summary with dataErrors := summary.dataErrors + 1 } := by
  cases error with
  | io path cause => exact absurd ⟨path, cause, rfl⟩ h
  | unreadable | fault => rfl

/-- All went well where nothing failed. -/
theorem exitCode_ofResults {results : List (Except CompileError Unit)} :
    (ofResults results).exitCode = .ok ↔ results ≠ [] ∧ ∀ result ∈ results, result = .ok () := by
  have hone : ∀ result : Except CompileError Unit,
      (¬ isDataFailure result = true ∧ ¬ isIoFailure result = true) ↔ result = .ok () := by
    intro result
    cases result with
    | ok => simp [isDataFailure, isIoFailure]
    | error error => cases herror : error.isDataError <;> simp [isDataFailure, isIoFailure, herror]
  rw [exitCode_eq_ok_iff, total_ofResults, ne_eq, List.length_eq_zero_iff, ofResults,
    List.countP_eq_zero, List.countP_eq_zero, ← forall₂_and]
  simp only [hone, ne_eq]

end Summary

section Batch

variable (config : Config) (target : Target) (workspace : Workspace)

/-- A file fares in a batch as it does in its turn. -/
theorem run_compileTo (source : String) :
    ∃ events, (compileTo config target source : StateM Workspace _).run workspace
      = ((turn config target workspace.files source).result,
        ⟨(turn config target workspace.files source).after,
          workspace.output ++ (turn config target workspace.files source).printed, events⟩) :=
  ⟨_, LooksAtFiles.compileTo config target source workspace⟩

/-- A batch goes on with what its first turn leaves. -/
theorem run_compileEach_cons (summary : Summary) (source : String) (sources : List String) :
    ∃ events, (compileEach config target summary (source :: sources) : StateM Workspace _).run
        workspace
      = (compileEach config target
          (summary.add (turn config target workspace.files source).result) sources :
          StateM Workspace _).run
        ⟨(turn config target workspace.files source).after,
          workspace.output ++ (turn config target workspace.files source).printed, events⟩ := by
  obtain ⟨events, hturn⟩ := run_compileTo config target workspace source
  rw [compileEach, StateT.run_bind, hturn]
  cases (turn config target workspace.files source).result with
  | ok => exact ⟨events, rfl⟩
  | error error => exact ⟨events ++ [.failed error], rfl⟩

/-- **A batch is its turns**, whatever was printed and logged before it. -/
theorem run_compileEach (summary : Summary) (sources : List String) :
    ∃ events, (compileEach config target summary sources : StateM Workspace _).run workspace
      = (((turns config target workspace.files sources).map Turn.result).foldl .add summary,
        ⟨leftBy workspace.files (turns config target workspace.files sources),
          workspace.output ++
            String.join ((turns config target workspace.files sources).map Turn.printed),
          events⟩) := by
  induction sources generalizing summary workspace with
  | nil => exact ⟨workspace.events, by simp [turns, compileEach]; rfl⟩
  | cons source sources ih =>
    obtain ⟨events, hfirst⟩ := run_compileEach_cons config target workspace summary source sources
    obtain ⟨events', hmore⟩ := ih _ _
    refine ⟨events', hfirst.trans (hmore.trans ?_)⟩
    rw [String.append_assoc, ← String.join_cons]
    rfl

/-- **The summary of a batch counts how its turns came out.** -/
theorem run_batch (sources : List String) :
    ∃ events, (batch config target sources : StateM Workspace _).run workspace
      = (.ofResults ((turns config target workspace.files sources).map Turn.result),
        ⟨leftBy workspace.files (turns config target workspace.files sources),
          workspace.output ++
            String.join ((turns config target workspace.files sources).map Turn.printed),
          events⟩) := by
  obtain ⟨events, hrun⟩ := run_compileEach config target workspace .empty sources
  rw [batch, StateT.run_bind, hrun, Summary.foldl_add_empty]
  exact ⟨_, rfl⟩

end Batch

/-! ## Failures -/

section Failures

variable {config : Config} {target : Target} {files : FileSystem} {source : String}
  {error : CompileError}

/-- **A file that does not compile leaves no trace** but its result. -/
theorem turn_of_refused (h : files.compiled config source = .error error) :
    turn config target files source = ⟨source, files, .error error, files, ""⟩ := by
  obtain ⟨events, hcompile⟩ := run_compileFile config (.ofFiles files) source
  have hcompiled : (Workspace.ofFiles files).files.compiled config source = .error error := h
  rw [hcompiled] at hcompile
  unfold turn compileTo
  cases target.destination? source with
  | some destination =>
    dsimp only
    rw [saveFile, StateT.run_bind, StateT.run_bind, hcompile]
    rfl
  | none =>
    dsimp only
    rw [StateT.run_bind, hcompile]
    rfl

/-- A file that is printed. -/
theorem turn_stdout (config : Config) (files : FileSystem) (source : String) :
    turn config .stdout files source
      = ⟨source, files, (files.compiled config source).map fun _ => (), files,
        ((files.compiled config source).toOption.map GeneratedFile.code).getD ""⟩ := by
  cases hcompiled : files.compiled config source with
  | error error => exact turn_of_refused hcompiled
  | ok file =>
    obtain ⟨events, hcompile⟩ := run_compileFile config (.ofFiles files) source
    have hfile : (Workspace.ofFiles files).files.compiled config source = .ok file := hcompiled
    rw [hfile] at hcompile
    rw [turn, compileTo]
    dsimp only [Target.destination?]
    rw [StateT.run_bind, hcompile]
    show Turn.mk source files _ _ ("" ++ file.code) = _
    rw [String.empty_append]
    rfl

/-- Standard output leaves the files alone, so each turn finds them as they were. -/
theorem turns_stdout (config : Config) (files : FileSystem) (sources : List String) :
    turns config .stdout files sources = sources.map (turn config .stdout files) := by
  induction sources with
  | nil => rfl
  | cons source sources ih =>
    have hafter : (turn config .stdout files source).after = files := by rw [turn_stdout]
    rw [turns, List.map_cons, hafter, ih]

/-- Turns that leave the files as they are do so together. -/
theorem leftBy_of_same {turns : List Turn} (h : ∀ turn ∈ turns, turn.after = files) :
    leftBy files turns = files := by
  induction turns with
  | nil => rfl
  | cons first turns ih =>
    rw [List.forall_mem_cons] at h
    rw [leftBy_cons, h.1, ih h.2]

/-- What is not there adds nothing. -/
theorem join_map_getD {α : Type} (text? : α → Option String) (items : List α) :
    String.join (items.map fun item => (text? item).getD "")
      = String.join (items.filterMap text?) := by
  induction items with
  | nil => rfl
  | cons item items ih =>
    rw [List.map_cons, String.join_cons, ih]
    cases htext : text? item with
    | none => rw [List.filterMap_cons_none htext, Option.getD_none, String.empty_append]
    | some text => rw [List.filterMap_cons_some htext, Option.getD_some, String.join_cons]

/-- **The turns of a batch are the same without a file that does not compile.** -/
theorem turns_without {sources : List String} {front back : List Turn} {failing : Turn}
    (h : turns config target files sources = front ++ failing :: back)
    (herror : failing.before.compiled config failing.source = .error error) :
    failing = ⟨failing.source, leftBy files front, .error error, leftBy files front, ""⟩ ∧
      turns config target files ((front ++ back).map Turn.source) = front ++ back := by
  obtain ⟨hfront, hfailing, hback⟩ := of_turns_eq h
  have hbefore : failing.before = leftBy files front := by
    rw [hfailing]
    rfl
  rw [hbefore] at herror
  rw [turn_of_refused herror] at hfailing
  refine ⟨hfailing, ?_⟩
  have hafter : failing.after = leftBy files front := by rw [hfailing]
  rw [List.map_append, turns_append, ← hfront, ← hafter, ← hback]

end Failures

/-- **Files that fail do not show in a batch.**  Each file is counted once, and all went well
exactly if there was a file and every one was compiled.  Without a file that does not compile, all
other turns are the same, and so are the files and the output at the end; it is missing from the
count of its failures only.  A batch that prints leaves the files alone and prints the code of the
files that compile, in order. -/
theorem batch_passes_over_failures {config : Config} {target : Target} {sources : List String}
    {before after : Workspace} {summary : Summary}
    (h : (batch config target sources : StateM Workspace _).run before = (summary, after)) :
    summary = .ofResults ((turns config target before.files sources).map Turn.result) ∧
    summary.total = sources.length ∧
    (summary.exitCode = .ok ↔ sources ≠ [] ∧
      ∀ turn ∈ turns config target before.files sources, turn.result = .ok ()) ∧
    (∀ front failing back error,
      turns config target before.files sources = front ++ failing :: back →
      failing.before.compiled config failing.source = .error error →
      ∃ summary' after', (batch config target ((front ++ back).map Turn.source) :
          StateM Workspace _).run before = (summary', after') ∧
        turns config target before.files ((front ++ back).map Turn.source) = front ++ back ∧
        after'.files = after.files ∧ after'.output = after.output ∧
        ((∃ path cause, error = .io path cause) →
          summary = { summary' with ioErrors := summary'.ioErrors + 1 }) ∧
        ((¬ ∃ path cause, error = .io path cause) →
          summary = { summary' with dataErrors := summary'.dataErrors + 1 })) ∧
    (target = .stdout → after.files = before.files ∧
      after.output = before.output ++ String.join (sources.filterMap fun source =>
        (before.files.compiled config source).toOption.map GeneratedFile.code)) := by
  obtain ⟨events, hrun⟩ := run_batch config target before sources
  obtain ⟨rfl, rfl⟩ := Prod.mk.inj (h.symm.trans hrun)
  refine ⟨rfl, ?_, ?_, ?_, ?_⟩
  · rw [Summary.total_ofResults, List.length_map, length_turns]
  · rw [Summary.exitCode_ofResults, List.forall_mem_map, ne_eq, List.map_eq_nil_iff,
      ← List.length_eq_zero_iff, length_turns, List.length_eq_zero_iff]
  · intro front failing back error hturns herror
    obtain ⟨hfailing, hwithout⟩ := turns_without hturns herror
    obtain ⟨events', hrun'⟩ := run_batch config target before ((front ++ back).map Turn.source)
    have hsummary : Summary.ofResults ((front ++ failing :: back).map Turn.result)
        = (Summary.ofResults ((front ++ back).map Turn.result)).add (.error error) := by
      rw [List.map_append, List.map_cons, Summary.ofResults_middle, ← List.map_append, hfailing]
    rw [hwithout] at hrun'
    refine ⟨_, _, hrun', hwithout, ?_, ?_, ?_, ?_⟩
    · dsimp only
      rw [hturns, leftBy_append, leftBy_append, leftBy_cons, hfailing]
    · dsimp only
      rw [hturns, hfailing]
      simp
    · rintro ⟨path, cause, rfl⟩
      rw [hturns, hsummary, Summary.add_io]
    · intro hdata
      rw [hturns, hsummary, Summary.add_of_not_io _ hdata]
  · rintro rfl
    dsimp only
    rw [turns_stdout, List.map_map, ← join_map_getD]
    refine ⟨leftBy_of_same ?_, ?_⟩
    · simp [turn_stdout]
    · simp [Function.comp_def, turn_stdout]

namespace Written

/-- The default settings, without the helpers at the front. -/
def config : Config := { Config.default with preamble := "" }

/-- A working directory with an empty pattern file in it. -/
def workspace : Workspace :=
  .ofFiles ((FileSystem.ofWorkingDirectory ["w"]).insert ["w", "a.pat"] (.file "".toUTF8))

/-- The second file is the code of the first, which is there at its turn only. -/
def sources : List String := ["a.pat", "a.c"]

/-- A batch of some sources in this workspace. -/
def ran (sources : List String) : Summary × Workspace :=
  (batch config .nextToSource sources : StateM Workspace _).run workspace

/-- The turn of the C file of the first source. -/
def second : Turn :=
  turn config .nextToSource
    (turn config .nextToSource workspace.files "a.pat").after "a.c"

theorem turns_sources : turns config .nextToSource workspace.files sources
    = [turn config .nextToSource workspace.files "a.pat"] ++ second :: [] := rfl

/-- The C code is no pattern file, which is the fault of the file. -/
theorem exists_error : ∃ error, second.before.compiled config "a.c" = .error error ∧
    ¬ ∃ path cause, error = .io path cause := by
  have hdata : Summary.isDataFailure ((second.before.compiled config "a.c").map fun _ => ())
      = true := by
    decide +kernel
  cases herror : second.before.compiled config "a.c" with
  | ok file =>
    rw [herror] at hdata
    cases hdata
  | error error =>
    refine ⟨error, rfl, ?_⟩
    rintro ⟨path, cause, rfl⟩
    rw [herror] at hdata
    cases hdata

end Written

/-- The code that the first file left is found, fails, and changes only the count. -/
theorem batch_passes_over_failures_written :
    (Written.ran ["a.pat"]).2.files = (Written.ran Written.sources).2.files ∧
      (Written.ran Written.sources).1 = { (Written.ran ["a.pat"]).1 with
        dataErrors := (Written.ran ["a.pat"]).1.dataErrors + 1 } := by
  obtain ⟨error, herror, hdata⟩ := Written.exists_error
  obtain ⟨-, -, -, hwithout, -⟩ :=
    batch_passes_over_failures (Prod.eta (Written.ran Written.sources)).symm
  obtain ⟨summary', after', hrun, -, hfiles, -, -, hcount⟩ :=
    hwithout _ _ _ error Written.turns_sources herror
  have hran : Written.ran ["a.pat"] = (summary', after') := hrun
  rw [hran]
  exact ⟨hfiles, hcount hdata⟩

end Peephole

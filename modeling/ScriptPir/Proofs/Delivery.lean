import ScriptPir.Command.Run
import ScriptPir.Proofs.Attempts

/-!
# The command that builds sources

Building leaves no partial output (`Command.builds_whole`): each source that gives a program is built as a
whole, and the others leave no trace but in the log and in the number of sources that have failed.

What is said of one source (`Building`) and of several (`outcomes_eraseIdx`, `at?_finish`) is put
together here for the command, behind what it does first: load the settings and open the log.

`BuildsWhole` has one field for each thing that a user can rely on: every path is tried once, failures
are counted, a source that fails leaves no output, one that gives no program makes no difference to the
others, and in the end every program that could be written is there as a whole. Paths may be relative to
the working directory or start at the root, and they may go up.
-/

namespace ScriptPir

open FileStore (Paves SameOff Persists)

variable {log : Option Log.Logger} {config : Config} {path : String} {w : World}

/-! ## Setting up

Before it builds anything, the command may write to one file only, that of the log. It appends
nothing to it, but makes it if it is missing, which is what `Log.IsOpen` asks for later. -/

/-- A log that was opened has its file, if it is to have one, and nothing else is changed. -/
theorem Log.isOpen_open {s : Log.Settings} {log : Log.Logger}
    (h : ((Log.Logger.open s : StateM World _).run w).1 = .ok log) :
    Log.IsOpen (some log) ((Log.Logger.open s : StateM World _).run w).2 ∧
      ((Log.Logger.open s : StateM World _).run w).2.current = w.current ∧
        SameOff (Log.place? w.current (some log)) w.files
          ((Log.Logger.open s : StateM World _).run w).2.files := by
  unfold Log.Logger.open at h ⊢
  -- a log without a file reports to the terminal, and then there is nothing to open
  by_cases hfile : s.file = ""
  · simp only [if_pos hfile] at h ⊢
    cases hformat : Format.ofName? s.format with
    | none =>
      simp only [hformat] at h
      cases h
    | some format =>
      simp only [hformat] at h
      obtain rfl : ⟨s.level, format, .report⟩ = log := Except.ok.inj h
      exact ⟨nofun, rfl, fun _ _ => rfl⟩
  · simp only [if_neg hfile, World.run_bind, World.run_append] at h ⊢
    -- the format is looked at only when the file is there, so a bad format leaves a new file behind
    cases happend : w.files.append w.current s.file [] with
    | error cause =>
      simp only [World.change, happend] at h
      cases h
    | ok files =>
      simp only [World.change, happend] at h ⊢
      cases hformat : Format.ofName? s.format with
      | none =>
        simp only [hformat] at h
        cases h
      | some format =>
        simp only [hformat, World.run_pure] at h ⊢
        obtain rfl : ⟨s.level, format, .file s.file⟩ = log := Except.ok.inj h
        obtain ⟨-, whole, hsets⟩ := FileStore.append_ok happend
        refine ⟨fun P hP => ?_, trivial, hsets.sameOff⟩
        obtain rfl : Path.place w.current s.file = P := Option.some.inj hP
        rw [FileStore.isDirectoryAt?, hsets, if_pos rfl]
        rfl

/-- To load the settings changes nothing. -/
theorem run_loadConfig (path : String) (w : World) :
    ((loadConfig path : StateM World _).run w).2 = w := by
  unfold loadConfig
  rw [World.run_bind, World.run_read]
  cases w.read path with
  | error e => rfl
  | ok source =>
    obtain ⟨bytes, ending⟩ := source
    cases ending <;> rfl

/-- When a command does its work, its log is open, it is still where it was started, and all other files
are as they were. -/
theorem Command.isOpen_setup {configPath : String} {verbose : Bool} {log : Log.Logger}
    (h : ((Command.setup configPath verbose : StateM World _).run w).1 = .ok (config, log)) :
    Log.IsOpen (some log) ((Command.setup configPath verbose : StateM World _).run w).2 ∧
      ((Command.setup configPath verbose : StateM World _).run w).2.current = w.current ∧
        SameOff (Log.place? w.current (some log)) w.files
          ((Command.setup configPath verbose : StateM World _).run w).2.files := by
  unfold Command.setup at h ⊢
  rw [World.run_bind, run_loadConfig] at h ⊢
  generalize ((loadConfig configPath : StateM World _).run w).1 = result at h ⊢
  cases result with
  | error e => cases h
  | ok loaded =>
    cases hsettings : loaded.log.settings with
    | error e =>
      simp only [hsettings] at h
      cases h
    | ok settings =>
      simp only [hsettings, World.run_bind] at h ⊢
      -- the level of the log makes no difference to its file
      generalize { settings with level := if verbose then .debug else settings.level } = s at h ⊢
      have hopen := @Log.isOpen_open w s log
      generalize (Log.Logger.open s : StateM World _).run w = opened at h hopen ⊢
      obtain ⟨result, w'⟩ := opened
      cases result with
      | error e => cases h
      | ok log' =>
        obtain ⟨-, rfl⟩ : loaded = config ∧ log' = log := Prod.mk.inj (Except.ok.inj h)
        exact hopen rfl

/-! ## Building all sources

`BuildsWhole` collects what there is to say of a run. Its fields speak of the attempts of the run,
with the worlds before and after each of them, and the last one of the files at the end. -/

/-- The settings for a command that may name a directory for the output and an encoding itself. -/
def Command.buildConfig (config : Config) (outputDir encoding : Option String) : Config :=
  { config with
    outputDir := outputDir.getD config.outputDir
    encoding := encoding.getD config.encoding }

/-- What a command does that builds some sources in a world: its result, and the world after it. -/
structure BuildsWhole (log : Option Log.Logger) (config : Config) (paths : List String) (w : World)
    (result : Except Command.Failure Unit) (w' : World) : Prop where
  /-- All sources are tried, in order. -/
  tried : (attempts log config paths w).map Attempt.path = paths
  /-- The command fails if and only if a source has failed, and it counts exactly these. -/
  counted : result =
    if (attempts log config paths w).countP Attempt.failed = 0 then .ok ()
    else .error (.files ((attempts log config paths w).countP Attempt.failed) paths.length)
  /-- A source that gives no program has failed, and nothing but the log has changed. -/
  untouched : ∀ a ∈ attempts log config paths w, a.before.program? config a.path = none →
    a.failed = true ∧ SameOff (Log.place? w.current log) a.before.files a.after.files
  /-- It counts for no other source: without it, the others have the same outcomes, and at last there are
  the same files. -/
  independent : ∀ i a, (attempts log config paths w)[i]? = some a →
    a.before.program? config a.path = none →
    (∀ path ∈ paths.drop (i + 1), Log.place? w.current log ≠ some (Path.place w.current path)) →
      outcomes log config (paths.eraseIdx i) w = (outcomes log config paths w).eraseIdx i ∧
        SameOff (Log.place? w.current log) (finish log config (paths.eraseIdx i) w).files w'.files
  /-- However a source fails, no part of an output is left: at most directories are new. -/
  whole : ∀ a ∈ attempts log config paths w, a.failed = true →
    Paves (Log.place? w.current log) (Path.way w.current config.outputDir) a.before.files a.after.files
  /-- A source that is a file at first, and neither the log nor an output, gives the program that it gives
  at first. -/
  source : ∀ a ∈ attempts log config paths w, ∀ P content,
    w.files.find w.current a.path = .ok (P, .file content) → Log.place? w.current log ≠ some P →
    (∀ o ∈ outputs log config paths w, P ≠ o.1) →
      a.before.program? config a.path = w.program? config a.path
  /-- If all outputs can be written, those sources are built that give a program. -/
  built : (∀ a ∈ attempts log config paths w, a.unwritten = false) →
    ∀ a ∈ attempts log config paths w, ∀ c,
      a.outcome = .ok ⟨c, outputPath config.outputDir a.path⟩ ↔
        a.before.program? config a.path = some c
  /-- At last each of their outputs is there, the last one of each name, and the directory for them.
  Nothing else has changed. -/
  delivered : (∀ a ∈ attempts log config paths w, a.unwritten = false) →
    ∀ P, Log.place? w.current log ≠ some P → w'.files.at? P =
      delivered (Path.way w.current config.outputDir) (outputs log config paths w) w.files P

/-- There is one attempt for each source, in order. -/
theorem map_path_attempts (paths : List String) (w : World) :
    (attempts log config paths w).map Attempt.path = paths := by
  induction paths generalizing w with
  | nil => rfl
  | cons path paths ih => exact congrArg (List.cons path) (ih _)

/-- With settings that can be used and an open log, all sources are built or leave no trace. -/
theorem buildsWhole_buildFiles {log : Log.Logger} (paths : List String)
    (hvalid : config.validate = .ok ()) (hopen : Log.IsOpen (some log) w) :
    BuildsWhole (some log) config paths w
      ((Command.buildFiles log config paths : StateM World _).run w).1
      ((Command.buildFiles log config paths : StateM World _).run w).2 := by
  -- the configuration is valid, so the command is the loop over all paths
  have hfinish : ((Command.buildFiles log config paths : StateM World _).run w).2 =
      finish (some log) config paths w := by
    unfold Command.buildFiles
    rw [hvalid]
    rfl
  have hresult : ((Command.buildFiles log config paths : StateM World _).run w).1 =
      if (attempts (some log) config paths w).countP Attempt.failed = 0 then .ok ()
      else .error (.files ((attempts (some log) config paths w).countP Attempt.failed)
        paths.length) := by
    unfold Command.buildFiles
    rw [hvalid, ← run_buildAll]
    rfl
  rw [hfinish]
  exact {
    tried := map_path_attempts paths w
    counted := hresult
    untouched := fun a ha hnone => by
      -- what an attempt did is said of the world before it, whose directory is the one at the start
      obtain ⟨hfailed, hsame⟩ := (building_of_mem ha).of_program?_eq_none hnone
      rw [(before_of_mem ha).2.1] at hsame
      exact ⟨by rw [Attempt.failed, hfailed]; rfl, hsame⟩
    independent := fun i a hi hnone hpaths => outcomes_eraseIdx hopen hi hnone hpaths
    whole := fun a ha hfailed => by
      have hpaves := (building_of_mem ha).paves (by simpa [Attempt.failed] using hfailed)
      rwa [(before_of_mem ha).2.1] at hpaves
    source := fun a ha P content hfind hlog htarget => program?_of_mem ha hfind hlog htarget
    built := fun hwritten a ha c => (building_of_mem ha).eq_ok_iff fun e he => by
      simpa [Attempt.unwritten, he] using hwritten a ha
    delivered := fun hwritten P hP => at?_finish hwritten hP }

section

variable {configPath : String} {verbose : Bool} {paths : List String}
  {outputDir encoding : Option String}

/-- A command that cannot be set up ends with that error. -/
theorem Command.run_build_error {e : Command.Failure}
    (h : ((Command.setup configPath verbose : StateM World _).run w).1 = .error e) :
    (Command.Invocation.exec (.run (.build paths outputDir encoding) configPath verbose) :
      StateM World _).run w =
      (.error e, ((Command.setup configPath verbose : StateM World _).run w).2) := by
  rw [Command.Invocation.exec, World.run_bind, h]
  rfl

/-- A command that is set up builds its sources in the world that was left then. -/
theorem Command.run_build {loaded : Config} {log : Log.Logger}
    (h : ((Command.setup configPath verbose : StateM World _).run w).1 = .ok (loaded, log)) :
    (Command.Invocation.exec (.run (.build paths outputDir encoding) configPath verbose) :
      StateM World _).run w =
      (Command.buildFiles log (buildConfig loaded outputDir encoding) paths : StateM World _).run
        ((Command.setup configPath verbose : StateM World _).run w).2 := by
  rw [Command.Invocation.exec, World.run_bind, h]
  rfl

end

/-- A command that is to build some sources first loads its settings and opens its log. If this fails, or
if the settings cannot be used, the command does nothing. Else it builds each source that gives a program
as a whole, and the others not at all. -/
theorem Command.builds_whole (configPath : String) (verbose : Bool) (paths : List String)
    (outputDir encoding : Option String) (w : World) :
    let run := (Command.Invocation.exec (.run (.build paths outputDir encoding) configPath verbose) :
      StateM World _).run w
    let ready := (Command.setup configPath verbose : StateM World _).run w
    (∀ e, ready.1 = .error e → run = (.error e, ready.2)) ∧
      ∀ loaded log, ready.1 = .ok (loaded, log) →
        ready.2.current = w.current ∧ SameOff (Log.place? w.current (some log)) w.files ready.2.files ∧
          (∀ e, (buildConfig loaded outputDir encoding).validate = .error e →
            run = (.error (.config e), ready.2)) ∧
          ((buildConfig loaded outputDir encoding).validate = .ok () →
            BuildsWhole (some log) (buildConfig loaded outputDir encoding) paths ready.2 run.1 run.2) := by
  intro run ready
  refine ⟨fun e he => Command.run_build_error he, fun loaded log hready => ?_⟩
  obtain ⟨hopen, hcurrent, hsame⟩ := Command.isOpen_setup hready
  have hrun : run = (Command.buildFiles log (buildConfig loaded outputDir encoding) paths :
      StateM World _).run ready.2 := Command.run_build hready
  rw [hrun]
  refine ⟨hcurrent, hsame, fun e he => ?_, fun hvalid => buildsWhole_buildFiles paths hvalid hopen⟩
  unfold Command.buildFiles
  simp only [he]
  rfl

/-- Two sources of one name, one with an error, one that is not complete, and settings with a log above the
directory in which the program runs. -/
def mixedSources : World where
  files := [("home/user/rubypir.yaml", "log:\n  file: ../build.log\n"),
    ("home/user/good.rb", "puts 1\n"), ("home/user/bad.rb", "y += 1\n"),
    ("home/user/broken.rb", "x = (1"), ("home/lib/good.rb", "puts 2\n")].foldl
      (fun s (name, text) => s.install name text.toUTF8.toList) {}
  current := ["home", "user"]

/-- The sources are named from the root, from where the program runs, and from above it. The output is asked
for in a directory that is named from the root and that is not there yet. -/
theorem Command.builds_whole_mixed :
    let paths := ["/home/user/good.rb", "bad.rb", "broken.rb", "none.rb", "../lib/good.rb"]
    let run := (Command.Invocation.exec
      (.run (.build paths (some "/srv/out") none) "rubypir.yaml" false) : StateM World _).run mixedSources
    run.1 = .error (.files 3 5) ∧
      ∀ P, P ≠ ["home", "build.log"] → run.2.files.at? P =
        if P = ["srv", "out", "good.pir"] then
          some (.file (".sub main\n    puts(2)\n.end\n\n.include \"stdlib/stdlib.pir\"\n").toUTF8.toList)
        else if P = ["srv"] ∨ P = ["srv", "out"] then some .directory
        else mixedSources.files.at? P := by
  intro paths run
  let loaded : Config := { log := { file := "../build.log" } }
  let log : Log.Logger := ⟨.info, .text, .file "../build.log"⟩
  let config := buildConfig loaded (some "/srv/out") none
  have hready : ((Command.setup "rubypir.yaml" false : StateM World _).run mixedSources).1 =
      .ok (loaded, log) := by
    decide +kernel
  obtain ⟨hcurrent, hsame, -, hbuilds⟩ :=
    (Command.builds_whole "rubypir.yaml" false paths (some "/srv/out") none mixedSources).2 loaded log hready
  have hwhole := hbuilds (by decide)
  have hway : Path.way mixedSources.current config.outputDir = [[], ["srv"], ["srv", "out"]] := by decide
  -- The attempts are computed once for all that is asked of them.
  obtain ⟨hwritten, hcount, houtputs⟩ :
      (∀ a ∈ attempts (some log) config paths
        ((Command.setup "rubypir.yaml" false : StateM World _).run mixedSources).2,
        a.unwritten = false) ∧
      (attempts (some log) config paths
        ((Command.setup "rubypir.yaml" false : StateM World _).run mixedSources).2).countP
          Attempt.failed = 3 ∧
      outputs (some log) config paths
        ((Command.setup "rubypir.yaml" false : StateM World _).run mixedSources).2 =
        [(["srv", "out", "good.pir"],
            (".sub main\n    puts(1)\n.end\n\n.include \"stdlib/stdlib.pir\"\n").toUTF8.toList),
          (["srv", "out", "good.pir"],
            (".sub main\n    puts(2)\n.end\n\n.include \"stdlib/stdlib.pir\"\n").toUTF8.toList)] := by
    decide +kernel
  refine ⟨hwhole.counted.trans (by rw [hcount]; rfl), fun P hP => ?_⟩
  have hlog : Log.place? mixedSources.current (some log) ≠ some P := by
    simpa [show Log.place? mixedSources.current (some log) = some ["home", "build.log"] by decide]
      using hP.symm
  rw [hwhole.delivered hwritten P (by rwa [hcurrent]), hcurrent, hway, houtputs, delivered,
    List.reverse_cons, List.reverse_cons, List.reverse_nil, List.nil_append, List.singleton_append,
    FileStore.lookup_cons, FileStore.lookup_cons]
  by_cases hP' : P = ["srv", "out", "good.pir"]
  · simp only [if_pos hP']
  · simp only [if_neg hP', List.lookup_nil]
    by_cases hroot : P = []
    · simp [hroot]
    · simp [hroot, hsame P hlog]

end ScriptPir

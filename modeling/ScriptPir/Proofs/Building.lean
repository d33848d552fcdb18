import ScriptPir.Build
import ScriptPir.Proofs.ReadFailure
import ScriptPir.Proofs.Worlds

/-!
# Building a source

A source gives a program in a world, or it does not (`World.program?`). Without a program, nothing but the
log is changed; a program is written as a whole, or at most directories are made for it (`building`). What
the file of the log holds makes no difference to any of this (`steady_buildFile`).

* `building` — what one attempt to build does to the files, in the three cases: no program, a program
  that could not be written, and a program that was;
* `Building.at?_eq` — files that the attempt has nothing to do with are as before;
* `Tame.buildFile` — a build is put together from tame steps, so whatever such steps keep is kept by it.

What a source gives depends on the world only by the source and the settings, which is why
`World.program?` can be asked in the world before all attempts as well as in the one just before its
own.
-/

namespace ScriptPir

open FileStore (Paves SameOff Persists)

variable {log : Option Log.Logger} {config : Config} {path : String} {w : World}

/-! ## One source

`Building` lists the ends that an attempt can come to, and says of each what the files are
afterwards. It is the inversion lemma of this development: what is said of many sources is derived
from it, and `buildFile` is not opened again. -/

/-- The program that a source gives, if it can be read and compiled and has no errors. -/
def World.program? (w : World) (config : Config) (path : String) : Option Compilation :=
  match w.read path with
  | .error _ => none
  | .ok source =>
    match (compile source (Path.base path) config w.site).outcome with
    | .error _ => none
    | .ok c => if c.failed then none else some c

/-- Where the program of a source is written: in the directory for the output, under the name of the
source. -/
def Config.outputPlace (config : Config) (here : Place) (path : String) : Place :=
  Path.place here config.outputDir ++ [Path.stem path ++ ".pir"]

/-- What is written of a program. -/
def Compilation.bytes (c : Compilation) : List UInt8 := c.output.toUTF8.toList

/-- Whether a source was not built because its output could not be written, or the directory for it could
not be made. -/
def BuildError.isOutput : BuildError → Bool
  | .directory _ _ | .writing _ _ => true
  | .opening _ | .compile _ | .semantic _ => false

/-- What the files become as a program is written from some directory. The file of the log is not looked
at. -/
structure Delivers (log : Option Log.Logger) (config : Config) (path : String) (c : Compilation)
    (here : Place) (s t : FileStore) : Prop where
  place : config.outputPlace here path ∉ Path.way here config.outputDir
  files (P : Place) (hP : Log.place? here log ≠ some P) : t.at? P =
    if P = config.outputPlace here path then some (.file c.bytes)
    else if P ∈ Path.way here config.outputDir then some .directory
    else s.at? P

/-- What can come of a source: its outcome, and the files after it. -/
inductive Building (log : Option Log.Logger) (config : Config) (path : String) (w : World) :
    Except BuildError Built → FileStore → Prop where
  /-- Without a program nothing changes, the log aside. -/
  | refused {e : BuildError} {s : FileStore} (hprogram : w.program? config path = none)
      (he : e.isOutput = false) (hsame : SameOff (Log.place? w.current log) w.files s) :
      Building log config path w (.error e) s
  /-- If a program cannot be written, at most directories are new. -/
  | stopped {c : Compilation} {e : BuildError} {s : FileStore}
      (hprogram : w.program? config path = some c) (he : e.isOutput = true)
      (hpaves : Paves (Log.place? w.current log) (Path.way w.current config.outputDir) w.files s) :
      Building log config path w (.error e) s
  | built {c : Compilation} {s : FileStore} (hprogram : w.program? config path = some c)
      (hdelivers : Delivers log config path c w.current w.files s) :
      Building log config path w (.ok ⟨c, outputPath config.outputDir path⟩) s

/-- A source that cannot be read to its end gives no program. -/
theorem exists_error_of_failure {source : Stream} {message : String}
    (hsource : source.ending = .failure message) (label : String) (config : Config) (site : Site) :
    ∃ e, (compile source label config site).outcome = .error e := by
  unfold compile
  cases hname : Encoding.ofName? config.encoding with
  | none => exact ⟨_, rfl⟩
  | some encoding =>
    -- however the bytes are decoded, the failure stays behind them
    have hdecoded : ∃ text, (encoding.decode source).ending = .failure text := by
      cases encoding with
      | utf8 | windows1252 | utf16 => exact ⟨message, hsource⟩
      | utf32 order =>
        unfold Encoding.decode
        dsimp only
        split
        · exact ⟨message, by simp [hsource]⟩
        · exact ⟨message, hsource⟩
    obtain ⟨text, hending⟩ := hdecoded
    have hbad := Lexer.bad_isSome_lexFrom text (encoding.decode source).glyphs {}
    rw [← hending] at hbad
    obtain ⟨b, hb⟩ := Option.isSome_iff_exists.mp hbad
    obtain ⟨e, he, -⟩ := @parse_error_of_bad (encoding.decode source) b hb
    exact ⟨.parse label e, by simp only [he]⟩

/-- The path of a source that can be compiled ends with a name. The root of the file system can be opened,
too, but not read. -/
theorem World.slash_not_mem_base_of_compile {source : Stream} {c : Compilation} {label : String}
    {site : Site} (h : w.read path = .ok source)
    (hcompile : (compile source label config site).outcome = .ok c) :
    '/' ∉ (Path.base path).toList := by
  unfold World.read at h
  cases hfind : w.files.find w.current path with
  | error cause => simp [hfind] at h
  | ok found =>
    obtain ⟨P, entry⟩ := found
    obtain ⟨hpath, hplace, hat, -⟩ := FileStore.find_ok hfind
    cases entry with
    | directory =>
      have hsource : ⟨[], .failure (FileError.message ⟨.reading, path, .isDirectory⟩)⟩ = source := by
        simpa only [hfind, Except.ok.injEq] using h
      have hfailure := (congrArg Stream.ending hsource).symm
      obtain ⟨e, he⟩ := exists_error_of_failure hfailure label config site
      rw [he] at hcompile
      cases hcompile
    | file content =>
      refine Path.slash_not_mem_base hpath fun hrooted hparts => ?_
      -- a path without parts leads to the root, which is a directory
      rw [hplace, Path.place, hparts, Path.start, if_pos hrooted] at hat
      cases hat

/-- What can come of a program: it is written as a whole, or at most directories are made for it. -/
theorem writeProgram_cases {c : Compilation} (hbase : '/' ∉ (Path.base path).toList) :
    (∃ e, ((writeProgram log config.outputDir path c : StateM World _).run w).1 = .error e ∧
        e.isOutput = true ∧
        Paves (Log.place? w.current log) (Path.way w.current config.outputDir) w.files
          ((writeProgram log config.outputDir path c : StateM World _).run w).2.files) ∨
      ((writeProgram log config.outputDir path c : StateM World _).run w).1 =
          .ok ⟨c, outputPath config.outputDir path⟩ ∧
        Delivers log config path c w.current w.files
          ((writeProgram log config.outputDir path c : StateM World _).run w).2.files := by
  have hpaves : Paves (Log.place? w.current log) (Path.way w.current config.outputDir) w.files
      ((makeDirectories config.outputDir : StateM World _).run w).2.files :=
    (World.paves_makeDirectories w.current config.outputDir).files rfl
  have hcurrent : ((makeDirectories config.outputDir : StateM World _).run w).2.current = w.current :=
    (World.paves_makeDirectories (L := none) w.current config.outputDir).current w
  have hwhole := @World.makeDirectories_ok config.outputDir w
  unfold writeProgram
  rw [World.run_bind]
  generalize (makeDirectories config.outputDir : StateM World _).run w = made at hpaves hcurrent hwhole ⊢
  obtain ⟨result, w₁⟩ := made
  -- the directories come first: without them the program is not tried
  cases result with
  | error e => exact .inl ⟨_, rfl, rfl, hpaves⟩
  | ok u =>
    obtain ⟨hdir, hway⟩ := hwhole rfl
    have hplace : Path.place w.current (outputPath config.outputDir path) =
        config.outputPlace w.current path := Path.place_outputPath w.current hdir hbase
    simp only [World.run_bind, World.run_write]
    cases hwrite : w₁.files.write w₁.current (outputPath config.outputDir path)
      c.output.toUTF8.toList with
    | error cause =>
      simp only [World.change, hwrite]
      exact .inl ⟨_, rfl, rfl, hpaves⟩
    | ok t =>
      simp only [World.change, hwrite]
      obtain ⟨hfree, hsets⟩ := FileStore.write_ok hwrite
      rw [show w₁.current = w.current from hcurrent, hplace] at hfree hsets
      -- the notice about the output is written behind it, and changes no file but the log
      refine .inr ⟨rfl, fun hmade => hfree (hway _ hmade), fun P hP => ?_⟩
      have hlog := (World.sameOff_writeNotices w.current log
        [.outputWritten (outputPath config.outputDir path) c.output.toUTF8.toList.length]).files
          (w := { w₁ with files := t }) hcurrent P hP
      refine hlog.trans ?_
      rw [hsets]
      split_ifs with htarget hmade
      · rfl
      · exact hway P hmade
      · exact (hpaves P hP).resolve_right fun hnew => hmade hnew.1

/-- To build a source comes to one of three ends. -/
theorem building (log : Option Log.Logger) (config : Config) (path : String) (w : World) :
    Building log config path w ((buildFile log config path : StateM World _).run w).1
      ((buildFile log config path : StateM World _).run w).2.files := by
  unfold buildFile
  rw [World.run_bind, World.run_read]
  cases hsource : w.read path with
  | error e =>
    refine .refused ?_ rfl fun _ _ => rfl
    simp [World.program?, hsource]
  | ok source =>
    simp only [World.run_bind, World.run_site]
    -- the notices of the compiler are logged whether it succeeds or not
    have hlog := (World.sameOff_writeNotices w.current log
      (compile source (Path.base path) config w.site).notices).files rfl
    have hcurrent := (World.sameOff_writeNotices w.current log
      (compile source (Path.base path) config w.site).notices).current w
    generalize ((Log.writeNotices log (compile source (Path.base path) config w.site).notices :
      StateM World _).run w).2 = w₁ at hlog hcurrent ⊢
    cases hcompile : (compile source (Path.base path) config w.site).outcome with
    | error e => exact .refused (by simp [World.program?, hsource, hcompile]) rfl hlog
    | ok c =>
      -- a compilation with semantic errors is no program
      by_cases hfailed : c.failed = true
      · simp only [if_pos hfailed]
        exact .refused (by simp [World.program?, hsource, hcompile, hfailed]) rfl hlog
      · simp only [if_neg hfailed]
        have hprogram : w.program? config path = some c := by
          simp [World.program?, hsource, hcompile, hfailed]
        have hbase := World.slash_not_mem_base_of_compile hsource hcompile
        have hcases := @writeProgram_cases log config path w₁ c hbase
        rw [hcurrent] at hcases
        rcases hcases with
          ⟨e, hresult, he, hpaves⟩ | ⟨hresult, hdelivers⟩
        · rw [hresult]
          exact .stopped hprogram he (FileStore.Gradual.trans hlog.paves hpaves)
        · rw [hresult]
          refine .built hprogram ⟨hdelivers.place, fun P hP => ?_⟩
          rw [hdelivers.files P hP, hlog P hP]

namespace Building

variable {outcome : Except BuildError Built} {s : FileStore}

/-- Without a program the source fails, and no file but the log is changed. -/
theorem of_program?_eq_none (h : Building log config path w outcome s)
    (hnone : w.program? config path = none) :
    outcome.isOk = false ∧ SameOff (Log.place? w.current log) w.files s := by
  cases h with
  | refused _ _ hsame => exact ⟨rfl, hsame⟩
  | stopped hprogram _ _ =>
    rw [hnone] at hprogram
    cases hprogram
  | built hprogram _ =>
    rw [hnone] at hprogram
    cases hprogram

/-- A source that fails leaves at most new directories behind, all of them on the way to the output. -/
theorem paves (h : Building log config path w outcome s) (hfailed : outcome.isOk = false) :
    Paves (Log.place? w.current log) (Path.way w.current config.outputDir) w.files s := by
  cases h with
  | refused _ _ hsame => exact hsame.paves
  | stopped _ _ hpaves => exact hpaves
  | built _ _ => cases hfailed

/-- If the output can be written, a source is built exactly if it gives a program, and then as that
program. -/
theorem eq_ok_iff {c : Compilation} (h : Building log config path w outcome s)
    (hwritten : ∀ e, outcome = .error e → e.isOutput = false) :
    outcome = .ok ⟨c, outputPath config.outputDir path⟩ ↔ w.program? config path = some c := by
  cases h with
  | refused hprogram _ _ => simp [hprogram]
  | stopped _ he _ => cases he.symm.trans (hwritten _ rfl)
  | built hprogram _ => simp [hprogram]

/-- What is at a place stays there, unless the place is that of the log or of an output. -/
theorem at?_eq {e : Entry} {P : Place} (h : Building log config path w outcome s)
    (hpersists : Persists w.files s) (hP : Log.place? w.current log ≠ some P)
    (htarget : ∀ built, outcome = .ok built → P ≠ config.outputPlace w.current path)
    (he : w.files.at? P = some e) : s.at? P = some e := by
  cases h with
  | refused hprogram _ hsame => exact (hsame P hP).trans he
  | stopped hprogram _ hpaves =>
    -- a directory comes only where nothing was, and there is an entry at this place
    rcases hpaves P hP with hold | ⟨-, hnone, -⟩
    · exact hold.trans he
    · rw [he] at hnone
      cases hnone
  | built hprogram hdelivers =>
    have hat := hdelivers.files P hP
    rw [if_neg (htarget _ rfl)] at hat
    split at hat
    · -- A directory was there before: no file becomes a directory.
      have hkind := hpersists P e.isDirectory (by rw [FileStore.isDirectoryAt?, he]; rfl)
      cases e with
      | directory => exact hat
      | file content => simp [FileStore.isDirectoryAt?, hat, Entry.isDirectory] at hkind
    · exact hat.trans he

end Building

/-! ## What building is put together from

The monad is left open in `Tame`: a property of computations that holds of all requests of the host
that `buildFile` makes, and that sequencing preserves, holds of `buildFile`. What is preserved by
every attempt (`persists_buildFile`) and what does not depend on the log (`steady_buildFile`) are two
cases of this. -/

/-- Reports what has become of a source. -/
def reportOutcome (path : String) : Except BuildError Built → StateM World Bool
  | .ok built => do
    Host.emit .output (built.path ++ "\n")
    return true
  | .error e => do
    (e.report path).forM fun line => Host.emit .errors (line ++ "\n")
    return false

/-- To build and to report are done one after the other. -/
theorem buildReporting_eq (log : Option Log.Logger) (config : Config) (path : String) :
    buildReporting log config path = buildFile log config path >>= reportOutcome path := by
  refine bind_congr fun outcome => ?_
  cases outcome <;> rfl

theorem run_reportOutcome (path : String) (outcome : Except BuildError Built) (w : World) :
    ((reportOutcome path outcome).run w).1 = outcome.isOk := by
  cases outcome <;> rfl

namespace World

variable {C : (α : Type) → StateM World α → Prop}

/-- A report makes no requests but to print lines. -/
theorem Tame.reportOutcome (h : Tame C) (path : String) (outcome : Except BuildError Built) :
    C _ (reportOutcome path outcome) := by
  cases outcome with
  | ok built => exact h.bind (h.emit _ _) fun _ => h.pure _
  | error e => exact h.bind (h.forM (fun _ => h.emit _ _) _) fun _ => h.pure _

/-- To build a source asks for the source, and then for what its output needs. -/
theorem Tame.buildFile (h : Tame C) (here : Place) (hread : C _ (Host.read path))
    (happend : ∀ path content, Log.place? here log = some (Path.place here path) →
      C _ (Host.append path content))
    (hmake : ∀ dir, C _ (Host.makeDirectory dir))
    (hwrite : ∀ target content, C _ (Host.write target content)) :
    C _ (buildFile log config path) := by
  -- in the order of `buildFile`: read, compile, write the notices, make directories, write
  refine h.bind hread fun read => ?_
  cases read with
  | error e => exact h.pure _
  | ok source =>
    refine h.bind h.site fun site => h.bind (h.writeNotices here _ happend) fun _ => ?_
    split
    · exact h.pure _
    · split
      · exact h.pure _
      · refine h.bind (h.makeDirectories here config.outputDir fun dir _ => hmake dir) fun made => ?_
        cases made with
        | error e => exact h.pure _
        | ok u =>
          refine h.bind (hwrite _ _) fun written => ?_
          cases written with
          | error e => exact h.pure _
          | ok u => exact h.bind (h.writeNotices here _ happend) fun _ => h.pure _

/-- To build a source removes nothing, and turns no file into a directory or back. -/
theorem persists_buildFile (here : Place) : Keeps here Persists _ (buildFile log config path) :=
  (tame_keeps here).buildFile here (keeps_read here path)
    (fun path content _ => persists_append here path content)
    (persists_makeDirectory here) (persists_write here)

/-- To build a source and report on it removes nothing either. -/
theorem persists_buildReporting (here : Place) :
    Keeps here Persists _ (buildReporting log config path) := by
  rw [buildReporting_eq]
  exact (tame_keeps here).bind (persists_buildFile here) ((tame_keeps here).reportOutcome path)

/-- What becomes of a source does not depend on what the file of the log holds, unless that is the
source. -/
theorem steady_buildFile {here : Place} (h : Log.place? here log ≠ some (Path.place here path)) :
    Steady here (Log.place? here log) _ (buildFile log config path) := by
  refine (tame_steady here _).buildFile here (steady_read h) (fun path content hplace => ?_)
    (fun dir => steady_change (FileStore.stable_makeDirectory _ here dir) _ _)
    fun target content => steady_change (FileStore.stable_write _ here target content) _ _
  rw [hplace]
  exact steady_change (FileStore.stable_append here path content) _ _

/-- With the report, too, what the log holds makes no difference, unless the log is the source. -/
theorem steady_buildReporting {here : Place}
    (h : Log.place? here log ≠ some (Path.place here path)) :
    Steady here (Log.place? here log) _ (buildReporting log config path) := by
  rw [buildReporting_eq]
  exact (tame_steady here _).bind (steady_buildFile h) ((tame_steady here _).reportOutcome path)

end World

end ScriptPir

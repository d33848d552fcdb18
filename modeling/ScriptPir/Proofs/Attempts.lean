import ScriptPir.Proofs.Building

/-!
# Building sources one after the other

The attempts to build some sources are listed with the worlds before and after them (`attempts`). At last
the files are those at first, but for the outputs and the directories on the way to them (`at?_finish`). A
source that is not overwritten gives the program that it gives at first (`program?_of_mem`), and a source
without a program might as well not have been tried (`outcomes_eraseIdx`).

The three statements have an induction on the list of sources in common, whose step is what one source
can come to (`Building`): the first source is read from the world at the start, and all others from the
world that its attempt leaves behind.
-/

namespace ScriptPir

open FileStore (Paves SameOff Persists)

variable {log : Option Log.Logger} {config : Config} {path : String} {w : World}

/-! ## All sources

An attempt keeps the worlds around it, so that what is said of a run can be said of the list of its
attempts. Nothing is assumed of the sources: the same one may stand in the list twice, and one may be
the output of another. -/

/-- What came of one source: its outcome, and the worlds before and after it. -/
structure Attempt where
  path : String
  before : World
  outcome : Except BuildError Built
  after : World

namespace Attempt

/-- What comes of a source in a world. -/
def make (log : Option Log.Logger) (config : Config) (path : String) (w : World) : Attempt where
  path := path
  before := w
  outcome := ((buildFile log config path : StateM World _).run w).1
  after := ((buildReporting log config path : StateM World _).run w).2

def failed (a : Attempt) : Bool := !a.outcome.isOk

/-- Whether there was a program that could not be written. -/
def unwritten (a : Attempt) : Bool :=
  match a.outcome with
  | .ok _ => false
  | .error e => e.isOutput

/-- The place and the content of the output, if there is one. -/
def output? (config : Config) (a : Attempt) : Option (Place × List UInt8) :=
  match a.outcome with
  | .ok built => some (config.outputPlace a.before.current a.path, built.compilation.bytes)
  | .error _ => none

end Attempt

/-- What comes of sources that are built one after the other. -/
def attempts (log : Option Log.Logger) (config : Config) : List String → World → List Attempt
  | [], _ => []
  | path :: paths, w =>
    let a := Attempt.make log config path w
    a :: attempts log config paths a.after

/-- The world after some sources were built. -/
def finish (log : Option Log.Logger) (config : Config) (paths : List String) (w : World) : World :=
  ((buildAll log config paths : StateM World _).run w).2

@[simp] theorem finish_nil : finish log config [] w = w := rfl

/-- To build a source and report on it gives whether it was built, and leaves the world of the attempt.
-/
theorem run_buildReporting (log : Option Log.Logger) (config : Config) (path : String) (w : World) :
    (buildReporting log config path : StateM World _).run w =
      (!(Attempt.make log config path w).failed, (Attempt.make log config path w).after) := by
  refine Prod.ext ?_ rfl
  rw [buildReporting_eq, World.run_bind]
  simp [run_reportOutcome, Attempt.failed, Attempt.make]

@[simp] theorem finish_cons (paths : List String) :
    finish log config (path :: paths) w =
      finish log config paths (Attempt.make log config path w).after := by
  unfold finish
  rw [buildAll, World.run_bind, run_buildReporting]
  rfl

/-- As many sources are counted as have failed. -/
theorem run_buildAll (paths : List String) (w : World) :
    ((buildAll log config paths : StateM World _).run w).1 =
      (attempts log config paths w).countP Attempt.failed := by
  induction paths generalizing w with
  | nil => rfl
  | cons path paths ih =>
    rw [buildAll, World.run_bind, run_buildReporting]
    simp only [World.run_bind, attempts, List.countP_cons, ← ih]
    cases (Attempt.make log config path w).failed <;> rfl

/-- A report changes no files. -/
theorem Attempt.files_after (log : Option Log.Logger) (config : Config) (path : String) (w : World) :
    (Attempt.make log config path w).after.files =
      ((buildFile log config path : StateM World _).run w).2.files := by
  show ((buildReporting log config path : StateM World _).run w).2.files = _
  rw [buildReporting_eq, World.run_bind]
  exact ((World.tame_keeps (R := Eq) _).reportOutcome path _).files rfl |>.symm

theorem Attempt.current_after (log : Option Log.Logger) (config : Config) (path : String) (w : World) :
    (Attempt.make log config path w).after.current = w.current :=
  (World.persists_buildReporting w.current).current w

theorem Attempt.site_after (log : Option Log.Logger) (config : Config) (path : String) (w : World) :
    (Attempt.make log config path w).after.site = w.site :=
  (World.persists_buildReporting w.current).site w

/-- An attempt makes no file a directory and no directory a file, and removes neither. -/
theorem Attempt.persists_after (log : Option Log.Logger) (config : Config) (path : String) (w : World) :
    Persists w.files (Attempt.make log config path w).after.files :=
  (World.persists_buildReporting w.current).files rfl

/-- An attempt comes to one of the three ends of a source. -/
theorem building_head (log : Option Log.Logger) (config : Config) (path : String) (w : World) :
    Building log config path w (Attempt.make log config path w).outcome
      (Attempt.make log config path w).after.files := by
  rw [Attempt.files_after]
  exact building log config path w

/-- Every attempt of a list comes to one of the three ends, from the world in which it was made. -/
theorem building_of_mem {paths : List String} {a : Attempt} (h : a ∈ attempts log config paths w) :
    Building log config a.path a.before a.outcome a.after.files := by
  induction paths generalizing w with
  | nil => cases h
  | cons path paths ih =>
    rcases List.mem_cons.mp h with rfl | h
    · exact building_head log config path w
    · exact ih h

/-- The outputs that were written, in order. -/
def outputs (log : Option Log.Logger) (config : Config) (paths : List String) (w : World) :
    List (Place × List UInt8) :=
  (attempts log config paths w).filterMap (Attempt.output? config)

/-- What is at a place after outputs were written: the last output for this place; without one, a
directory if it is on the way to the outputs, and else what was there before. -/
def delivered (dirs : List Place) (outputs : List (Place × List UInt8)) (s : FileStore) (P : Place) :
    Option Entry :=
  match outputs.reverse.lookup P with
  | some bytes => some (.file bytes)
  | none => if outputs ≠ [] ∧ P ∈ dirs then some .directory else s.at? P

/-- An output that is written first counts as long as no later one is written to its place. -/
theorem delivered_cons {dirs : List Place} {target P : Place} {bytes : List UInt8}
    {outputs : List (Place × List UInt8)} {s t : FileStore} (htarget : target ∉ dirs)
    (h : t.at? P = if P = target then some (.file bytes)
      else if P ∈ dirs then some .directory else s.at? P) :
    delivered dirs outputs t P = delivered dirs ((target, bytes) :: outputs) s P := by
  unfold delivered
  rw [List.reverse_cons, List.lookup_append]
  -- a later output for the place decides, so only the case without one depends on the first output
  cases outputs.reverse.lookup P with
  | some later => rfl
  | none =>
    by_cases hP : P = target
    · have ht : t.at? target = some (.file bytes) := by rw [← hP, h, if_pos hP]
      simp [hP, htarget, ht]
    · have hne : (P == target) = false := by simpa using hP
      simp only [h, if_neg hP, List.lookup_cons, hne, List.lookup_nil, Option.or_none]
      split_ifs <;> simp_all

/-- If all programs can be written, the files at last are those at first, but for the outputs and the
directories on the way to them. -/
theorem at?_finish {paths : List String}
    (hwritten : ∀ a ∈ attempts log config paths w, a.unwritten = false)
    {P : Place} (hP : Log.place? w.current log ≠ some P) :
    (finish log config paths w).files.at? P =
      delivered (Path.way w.current config.outputDir) (outputs log config paths w) w.files P := by
  induction paths generalizing w with
  | nil => simp [delivered, outputs, attempts]
  | cons path paths ih =>
    have hcurrent := Attempt.current_after log config path w
    rw [finish_cons, ih (fun a ha => hwritten a (List.mem_cons_of_mem _ ha)) (by rwa [hcurrent]), hcurrent]
    have hhead := hwritten (Attempt.make log config path w) List.mem_cons_self
    have hbuilding := building_head log config path w
    -- each end of the first attempt adds its own part to what is delivered: nothing, nothing, or one
    -- output
    generalize houtcome : (Attempt.make log config path w).outcome = outcome at hbuilding
    cases hbuilding with
    | refused hprogram he hsame =>
      simp [outputs, attempts, delivered, Attempt.output?, houtcome, hsame P hP]
    | stopped hprogram he hpaves =>
      rw [Attempt.unwritten, houtcome] at hhead
      cases he.symm.trans hhead
    | built hprogram hdelivers =>
      simp only [outputs, attempts, List.filterMap_cons, Attempt.output?, houtcome]
      exact delivered_cons hdelivers.place (hdelivers.files P hP)

/-! ## What lasts

Between the start and an attempt other sources were tried, and each of them wrote one output at most.
So what the attempt finds at a place is what was there at first, unless the place is that of the log
or of an output. -/

/-- What an attempt finds of the files at first. -/
theorem before_of_mem {paths : List String} {a : Attempt} (h : a ∈ attempts log config paths w) :
    Persists w.files a.before.files ∧ a.before.current = w.current ∧ a.before.site = w.site ∧
      ∀ P e, Log.place? w.current log ≠ some P → (∀ o ∈ outputs log config paths w, P ≠ o.1) →
        w.files.at? P = some e → a.before.files.at? P = some e := by
  -- on the paths: an attempt is the first one, or one of those made from the world behind the first
  induction paths generalizing w with
  | nil => cases h
  | cons path paths ih =>
    rcases List.mem_cons.mp h with rfl | h
    · exact ⟨FileStore.Gradual.refl _, rfl, rfl, fun P e _ _ he => he⟩
    · obtain ⟨hpersists, hcurrent, hsite, hat⟩ := ih h
      have hstep := Attempt.persists_after log config path w
      have hhere := Attempt.current_after log config path w
      refine ⟨FileStore.Gradual.trans hstep hpersists, hcurrent.trans hhere,
        hsite.trans (Attempt.site_after _ _ _ _), ?_⟩
      intro P e hP htarget he
      -- the outputs of the later attempts are outputs of the whole list
      have hrest : ∀ o ∈ outputs log config paths (Attempt.make log config path w).after, P ≠ o.1 := by
        intro o ho
        obtain ⟨b, hb, hbo⟩ := List.mem_filterMap.mp ho
        exact htarget o (List.mem_filterMap.mpr ⟨b, List.mem_cons_of_mem _ hb, hbo⟩)
      have hhead : ∀ built, (Attempt.make log config path w).outcome = .ok built →
          P ≠ config.outputPlace w.current path := by
        intro built hbuilt
        refine htarget (config.outputPlace w.current path, built.compilation.bytes) (List.mem_filterMap.mpr ?_)
        exact ⟨Attempt.make log config path w, List.mem_cons_self, by rw [Attempt.output?, hbuilt]; rfl⟩
      have hbuilding := building_head log config path w
      exact hat P e (by rwa [hhere]) hrest (hbuilding.at?_eq hstep hP hhead he)

/-- A source that is a file at first is compiled as it was at first, unless it is the log or an output. -/
theorem program?_of_mem {paths : List String} {a : Attempt} (h : a ∈ attempts log config paths w)
    {P : Place} {content : List UInt8} (hfind : w.files.find w.current a.path = .ok (P, .file content))
    (hlog : Log.place? w.current log ≠ some P) (htarget : ∀ o ∈ outputs log config paths w, P ≠ o.1) :
    a.before.program? config a.path = w.program? config a.path := by
  obtain ⟨hpersists, hcurrent, hsite, hat⟩ := before_of_mem h
  obtain ⟨-, hplace, hfile, hway⟩ := FileStore.find_ok hfind
  have hend : a.before.files.at? P = some (.file content) := hat P _ hlog htarget hfile
  -- what lies on the way to the source lasts as well, so the path still leads to the same place
  have hkind : ∀ Q ∈ Path.way w.current a.path,
      a.before.files.isDirectoryAt? Q = w.files.isDirectoryAt? Q := by
    intro Q hQ
    rcases hway Q hQ with rfl | hdirectory
    · rw [FileStore.isDirectoryAt?, FileStore.isDirectoryAt?, hend, hfile]
    · have hthere : w.files.isDirectoryAt? Q = some true := by
        rw [FileStore.isDirectoryAt?, hdirectory]
        rfl
      rw [hthere, hpersists Q true hthere]
  have hsame : a.before.files.find w.current a.path = w.files.find w.current a.path :=
    FileStore.find_congr hkind (by rw [← hplace, hend, hfile])
  unfold World.program? World.read
  rw [hcurrent, hsame, hsite]

/-! ## Independence

To take a source without a program out of the list changes only what the log holds. The log must be
there at the start, since the first record would make its file otherwise, and no later source may be
the file of the log. -/

/-- What came of sources that are built one after the other. -/
def outcomes (log : Option Log.Logger) (config : Config) (paths : List String) (w : World) :
    List (Except BuildError Built) :=
  (attempts log config paths w).map Attempt.outcome

/-- If a log has a file, it is there. -/
def Log.IsOpen (log : Option Logger) (w : World) : Prop :=
  ∀ P, Log.place? w.current log = some P → w.files.isDirectoryAt? P = some false

/-- Worlds that differ at most in what the log holds give the same outcomes, if no source is the log. -/
theorem outcomes_of_alike {paths : List String} {w' : World}
    {here : Place} (hpaths : ∀ path ∈ paths, Log.place? here log ≠ some (Path.place here path))
    (h : World.Alike here (Log.place? here log) w w') :
    outcomes log config paths w = outcomes log config paths w' ∧
      World.Alike here (Log.place? here log) (finish log config paths w)
        (finish log config paths w') := by
  induction paths generalizing w w' with
  | nil => exact ⟨rfl, h⟩
  | cons path paths ih =>
    obtain ⟨hpath, hpaths⟩ := List.forall_mem_cons.mp hpaths
    have hhead : (Attempt.make log config path w).outcome = (Attempt.make log config path w').outcome :=
      (World.steady_buildFile hpath).result h
    obtain ⟨hrest, hfinish⟩ := ih hpaths ((World.steady_buildReporting hpath).world h)
    rw [finish_cons, finish_cons]
    exact ⟨congrArg₂ List.cons hhead hrest, hfinish⟩

/-- Files that are the same off the log, the kind of each place included, make worlds that are alike. -/
theorem World.alike_of_sameOff {w' : World} (hopen : Log.IsOpen log w)
    (hpersists : Persists w.files w'.files) (hsame : SameOff (Log.place? w.current log) w.files w'.files)
    (hcurrent : w'.current = w.current) (hsite : w'.site = w.site) :
    World.Alike w.current (Log.place? w.current log) w w' := by
  refine ⟨⟨fun Q => ?_, hsame⟩, ⟨rfl, hcurrent⟩, hsite.symm⟩
  by_cases hQ : Log.place? w.current log = some Q
  · rw [hopen Q hQ, hpersists Q false (hopen Q hQ)]
  · rw [FileStore.isDirectoryAt?, FileStore.isDirectoryAt?, hsame Q hQ]

/-- A source that gives no program might as well not have been tried. -/
theorem outcomes_eraseIdx {paths : List String} {i : Nat} {a : Attempt} (hopen : Log.IsOpen log w)
    (hi : (attempts log config paths w)[i]? = some a)
    (hnone : a.before.program? config a.path = none)
    (hpaths : ∀ path ∈ paths.drop (i + 1),
      Log.place? w.current log ≠ some (Path.place w.current path)) :
    outcomes log config (paths.eraseIdx i) w = (outcomes log config paths w).eraseIdx i ∧
      SameOff (Log.place? w.current log) (finish log config (paths.eraseIdx i) w).files
        (finish log config paths w).files := by
  induction paths generalizing w i with
  | nil => simp [attempts] at hi
  | cons path paths ih =>
    cases i with
    | zero =>
      -- the source that is left out stands first: it changed nothing but the log, so the others are
      -- built in a world that is alike
      obtain rfl : Attempt.make log config path w = a := by simpa [attempts] using hi
      have hsame : SameOff (Log.place? w.current log) w.files (Attempt.make log config path w).after.files :=
        ((building_head log config path w).of_program?_eq_none hnone).2
      have halike := World.alike_of_sameOff hopen (Attempt.persists_after log config path w) hsame
        (Attempt.current_after log config path w) (Attempt.site_after log config path w)
      obtain ⟨hrest, hfinish⟩ := @outcomes_of_alike log config w paths _ _ hpaths halike
      exact ⟨hrest, by simpa using hfinish.files.same⟩
    | succ i =>
      have hcurrent := Attempt.current_after log config path w
      have hopen' : Log.IsOpen log (Attempt.make log config path w).after :=
        fun P hP => Attempt.persists_after log config path w P false (hopen P (hcurrent ▸ hP))
      obtain ⟨hrest, hfinish⟩ := ih hopen' (by simpa [attempts] using hi) (by rwa [hcurrent])
      rw [hcurrent] at hfinish
      exact ⟨congrArg (List.cons _) hrest, by simpa using hfinish⟩

end ScriptPir

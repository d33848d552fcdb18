import ScriptPir.Proofs.Layout

/-!
# Running the lines of a subroutine

A subroutine is run from its first line on: a label does nothing, jumps go on behind their label, tests
are decided by an oracle from what was observed so far, and all other instructions are observed and
followed by the next line.

Beside it stands what a subroutine is written as: statements are executed by recursion on their
structure, every simple statement and condition with the instructions emitted for it. Only the
number of rounds of a loop is bounded, so that the execution of a program that does not end can be
looked at as far as one wants.

`SameRuns` says that the two show the same: all finite beginnings of what is observed, and how it ends.
It follows from `Tracks`, which says only where the lines get to if the statements get somewhere.
-/

namespace ScriptPir

/-- Something observed: an instruction was executed, or a value was tested. -/
inductive Action where
  | run (i : Instr)
  | test (v : Value) (outcome : Bool)

/-- What was observed, the oldest first. -/
abbrev Trace := List Action

/-- Decides from what was observed whether a value that is tested is true. -/
abbrev Oracle := Trace → Value → Bool

/-- How a subroutine ends: behind its last line, or by a return. -/
inductive Outcome where
  | fell
  | returned (v : Option Value)

/-! ## Lines

The machine knows nothing of expressions: what an instruction does to registers is left to the
oracle, which sees all that was observed. Only the order of instructions and the ways of tests and
jumps are fixed. -/

/-- Where a run stands: the lines ahead, and what was observed. -/
structure Point where
  ahead : List Line
  trace : Trace

/-- What a run came to. -/
inductive Progress where
  | going (p : Point)
  | ended (o : Outcome) (trace : Trace)
  /-- A jump found no label. -/
  | lost (trace : Trace)

/-- What was observed on the way. -/
def Progress.trace : Progress → Trace
  | going p => p.trace
  | ended _ trace | lost trace => trace

/-- The lines behind a label. -/
def behind (l : Label) : List Line → Option (List Line)
  | [] => none
  | .label m :: lines => if m = l then some lines else behind l lines
  | .instr _ :: lines => behind l lines

section Runs

variable (oracle : Oracle) (program : List Line)

/-- Goes on behind a label. -/
def jumpTo (l : Label) (trace : Trace) : Progress :=
  match behind l program with
  | some ahead => .going ⟨ahead, trace⟩
  | none => .lost trace

/-- Passes one line. -/
def stepLine : Point → Progress
  | ⟨[], h⟩ => .ended .fell h
  | ⟨.label _ :: ahead, h⟩ => .going ⟨ahead, h⟩
  | ⟨.instr (.jump l) :: _, h⟩ => jumpTo program l h
  | ⟨.instr (.branch negated v l) :: ahead, h⟩ =>
    let outcome := oracle h v
    if outcome = negated then .going ⟨ahead, h ++ [.test v outcome]⟩
    else jumpTo program l (h ++ [.test v outcome])
  | ⟨.instr (.ret v) :: _, h⟩ => .ended (.returned v) h
  | ⟨.instr i :: ahead, h⟩ => .going ⟨ahead, h ++ [.run i]⟩

/-- Passes a number of lines, or fewer if the run ends before. -/
def runLines : Nat → Point → Progress
  | 0, p => .going p
  | n + 1, p =>
    match stepLine oracle program p with
    | .going q => runLines n q
    | stopped => stopped

/-- A run gets from one point to another. -/
def Gets (p q : Point) : Prop := ∃ n, runLines oracle program n p = .going q

/-- A run ends. -/
def Ends (p : Point) (o : Outcome) (trace : Trace) : Prop :=
  ∃ n, runLines oracle program n p = .ended o trace

end Runs

section Runs

variable {oracle : Oracle} {program : List Line} {p q r : Point}

theorem Gets.refl (p : Point) : Gets oracle program p p := ⟨0, rfl⟩

/-- A run with one more line passes the first one and goes on. -/
theorem runLines_step {n : Nat} (h : stepLine oracle program p = .going q) :
    runLines oracle program (n + 1) p = runLines oracle program n q := by
  rw [runLines, h]

/-- A run gets to where it gets from behind the first line. -/
theorem Gets.step (h : stepLine oracle program p = .going q) (hq : Gets oracle program q r) :
    Gets oracle program p r := by
  obtain ⟨n, hn⟩ := hq
  exact ⟨n + 1, (runLines_step h).trans hn⟩

/-- A run goes on from where it got to. -/
theorem runLines_add {m : Nat} (h : runLines oracle program m p = .going q) (n : Nat) :
    runLines oracle program (m + n) p = runLines oracle program n q := by
  induction m generalizing p with
  | zero =>
    rw [runLines] at h
    cases h
    rw [Nat.zero_add]
  | succ m ih =>
    rw [runLines] at h
    cases hstep : stepLine oracle program p with
    | going p' =>
      rw [hstep] at h
      rw [Nat.succ_add, runLines_step hstep]
      exact ih h
    | ended o trace => rw [hstep] at h; cases h
    | lost trace => rw [hstep] at h; cases h

/-- A run that gets to a point gets to where the run from there does. -/
theorem Gets.trans (h : Gets oracle program p q) (h' : Gets oracle program q r) :
    Gets oracle program p r := by
  obtain ⟨m, hm⟩ := h
  obtain ⟨n, hn⟩ := h'
  exact ⟨m + n, (runLines_add hm n).trans hn⟩

/-- A run that gets to a point ends as the run from there does. -/
theorem Gets.ends {o : Outcome} {trace : Trace} (h : Gets oracle program p q)
    (h' : Ends oracle program q o trace) : Ends oracle program p o trace := by
  obtain ⟨m, hm⟩ := h
  obtain ⟨n, hn⟩ := h'
  exact ⟨m + n, (runLines_add hm n).trans hn⟩

/-! ## What is observed only grows

A run that is cut off shows a beginning of what the run shows. So two bounded runs can be compared by
the beginnings that they show, without any limit. -/

/-- One step observes one thing at most. -/
theorem stepLine_trace (oracle : Oracle) (program : List Line) (p : Point) :
    ∃ seen : Trace, seen.length ≤ 1 ∧
      (stepLine oracle program p).trace = p.trace ++ seen := by
  -- to jump is not seen
  have hjump : ∀ l h, (jumpTo program l h).trace = h := by
    intro l h
    unfold jumpTo
    split <;> rfl
  unfold stepLine
  split
  · exact ⟨[], by simp, by simp [Progress.trace]⟩
  · exact ⟨[], by simp, by simp [Progress.trace]⟩
  · exact ⟨[], by simp, by simp [hjump]⟩
  · rename_i v _ _ h
    refine ⟨[.test v (oracle h v)], by simp, ?_⟩
    dsimp only
    split
    · rfl
    · rw [hjump]
  · exact ⟨[], by simp, by simp [Progress.trace]⟩
  · rename_i i _ _ _ _ _
    exact ⟨[.run i], by simp, rfl⟩

/-- A run observes at most as many things as it passes lines, behind what was observed before. -/
theorem runLines_trace (oracle : Oracle) (program : List Line) (n : Nat) (p : Point) :
    ∃ seen : Trace, seen.length ≤ n ∧
      (runLines oracle program n p).trace = p.trace ++ seen := by
  -- on the length of the run: one step, and a run from the point behind it
  induction n generalizing p with
  | zero => exact ⟨[], by simp, by simp [runLines, Progress.trace]⟩
  | succ n ih =>
    obtain ⟨seen, hlength, hseen⟩ := stepLine_trace oracle program p
    rw [runLines]
    cases hstep : stepLine oracle program p with
    | going q =>
      rw [hstep] at hseen
      obtain ⟨more, hmore, heq⟩ := ih q
      refine ⟨seen ++ more, by rw [List.length_append]; omega, ?_⟩
      rw [heq, ← List.append_assoc, ← hseen]
      rfl
    | ended o trace =>
      rw [hstep] at hseen
      exact ⟨seen, by omega, hseen⟩
    | lost trace =>
      rw [hstep] at hseen
      exact ⟨seen, by omega, hseen⟩

/-- What was observed stays observed. -/
theorem Gets.trace (h : Gets oracle program p q) : p.trace <+: q.trace := by
  obtain ⟨n, hn⟩ := h
  obtain ⟨seen, -, hseen⟩ := runLines_trace oracle program n p
  rw [hn] at hseen
  exact ⟨seen, hseen.symm⟩

/-- A run that has stopped stays where it stopped. -/
theorem runLines_of_stopped {m n : Nat} {r : Progress} (hstopped : ∀ q, r ≠ .going q)
    (h : runLines oracle program m p = r) (hle : m ≤ n) : runLines oracle program n p = r := by
  -- by induction on the shorter run, which the longer one repeats step by step
  induction m generalizing n p with
  | zero => exact absurd h.symm (hstopped p)
  | succ m ih =>
    obtain ⟨k, rfl⟩ : ∃ k, n = k + 1 := ⟨n - 1, by omega⟩
    rw [runLines] at h ⊢
    cases hstep : stepLine oracle program p with
    | going q =>
      rw [hstep] at h
      exact ih h (by omega)
    | ended o trace =>
      rw [hstep] at h
      exact h
    | lost trace =>
      rw [hstep] at h
      exact h

theorem runLines_of_ended {m n : Nat} {o : Outcome} {trace : Trace}
    (h : runLines oracle program m p = .ended o trace) (hle : m ≤ n) :
    runLines oracle program n p = .ended o trace :=
  runLines_of_stopped nofun h hle

/-- What is observed in a run is a beginning of what is observed in a longer one. -/
theorem runLines_trace_mono {m n : Nat} (hle : m ≤ n) (p : Point) :
    (runLines oracle program m p).trace <+: (runLines oracle program n p).trace := by
  cases hm : runLines oracle program m p with
  | going q =>
    obtain ⟨k, rfl⟩ := Nat.exists_eq_add_of_le hle
    obtain ⟨seen, -, hseen⟩ := runLines_trace oracle program k q
    rw [runLines_add hm, hseen]
    exact List.prefix_append ..
  | ended o trace =>
    have hsame := runLines_of_ended hm hle
    exact ⟨[], by rw [List.append_nil, hsame]⟩
  | lost trace =>
    have hsame := runLines_of_stopped (r := .lost trace) nofun hm hle
    exact ⟨[], by rw [List.append_nil, hsame]⟩

/-- A run ends in one way only. -/
theorem Ends.unique {o o' : Outcome} {h h' : Trace} (he : Ends oracle program p o h)
    (he' : Ends oracle program p o' h') : o = o' ∧ h = h' := by
  obtain ⟨m, hm⟩ := he
  obtain ⟨n, hn⟩ := he'
  have hsame := runLines_of_ended hm (Nat.le_max_left m n)
  rw [runLines_of_ended hn (Nat.le_max_right m n)] at hsame
  cases hsame
  exact ⟨rfl, rfl⟩

end Runs

/-! ## Statements

What a program means, without lines and labels: statements are executed as they stand in the program,
with the same oracle. A loop counts its rounds, which makes the recursion structural. -/

/-- How far the execution of a statement went. -/
inductive Signal where
  | done
  /-- The loop around is left. -/
  | broke
  | returned (v : Option Value)
  /-- The bound on the rounds of a loop was reached. -/
  | cut

/-- What was observed once some instructions were executed. -/
def Trace.after (h : Trace) (code : List Instr) : Trace := h ++ code.map .run

namespace Shape

section Statements

variable (E : Emission) (oracle : Oracle)

/-- Evaluates and tests a condition. -/
def Cond.exec (c : Cond) (h : Trace) : Bool × Trace :=
  let h := h.after (E.code c.expr.id)
  let outcome := oracle h (E.value c.expr.id)
  (outcome, h ++ [.test (E.value c.expr.id) outcome])

/-- Executes a loop for a number of rounds, with some instructions at the end of each. -/
def loop (c : Cond) (body : Trace → Signal × Trace) (last : List Instr) :
    Nat → Trace → Signal × Trace
  | 0, h => (.cut, h)
  | n + 1, h =>
    match c.exec E oracle h with
    | (false, h) => (.done, h)
    | (true, h) =>
      match body h with
      | (.done, h) => loop c body last n (h.after last)
      | (.broke, h) => (.done, h)
      | (.returned v, h) => (.returned v, h)
      | (.cut, h) => (.cut, h)

mutual

/-- Executes a statement, with at most a number of rounds in every loop. -/
def Stmt.exec (rounds : Nat) : Stmt → Trace → Signal × Trace
  | .simple x, h => (.done, h.after (E.code x.node.id))
  | .ret _ none, h => (.returned none, h)
  | .ret _ (some e), h => (.returned (some (E.value e.id)), h.after (E.code e.id))
  | .brk _, h => (.broke, h)
  | .branch _ negated c _ body arms, h =>
    match c.exec E oracle h with
    | (outcome, h) => if outcome = negated then arms.exec rounds h else body.exec rounds h
  | .whileLoop _ c _ body, h => loop E oracle c (body.exec rounds) [] rounds h
  | .forLoop _ init c last _ body, h =>
    loop E oracle c (body.exec rounds) (last.code E) rounds (h.after (init.code E))

/-- Executes statements one after the other. -/
def Stmts.exec (rounds : Nat) : Stmts → Trace → Signal × Trace
  | .nil, h => (.done, h)
  | .cons first rest, h =>
    match first.exec rounds h with
    | (.done, h) => rest.exec rounds h
    | stopped => stopped

/-- Executes the first of the further arms whose condition holds. -/
def Arms.exec (rounds : Nat) : Arms → Trace → Signal × Trace
  | .none, h => (.done, h)
  | .last _ _ body, h => body.exec rounds h
  | .elsif _ c _ body rest, h =>
    match c.exec E oracle h with
    | (outcome, h) => if outcome = false then rest.exec rounds h else body.exec rounds h

end

end Statements

end Shape

/-! ## The same runs

A run and an execution are cut off differently: by lines and by rounds. `Tracks` relates them in one
direction only; as every round observes something, it is enough for both. -/

/-- The signal of an execution that ends in a given way. -/
def Outcome.signal : Outcome → Signal
  | fell => .done
  | returned v => .returned v

/-- Lines show the same as an execution whose loops are bounded by a number of rounds: the same finite
beginnings of what is observed, whatever the oracle says, and the same end if there is one. -/
structure SameRuns (program : List Line) (exec : Oracle → Nat → Signal × Trace) : Prop where
  beginnings : ∀ oracle seen,
    (∃ n, seen <+: (runLines oracle program n ⟨program, []⟩).trace) ↔
      ∃ rounds, seen <+: (exec oracle rounds).2
  ends : ∀ oracle o trace, Ends oracle program ⟨program, []⟩ o trace ↔
    ∃ rounds, exec oracle rounds = (o.signal, trace)

/-- Where lines get to if an execution gets somewhere. An execution that was cut short has observed
something in every round. -/
def Tracks (oracle : Oracle) (program : List Line) (rounds : Nat) : Signal × Trace → Prop
  | (.done, h) => Ends oracle program ⟨program, []⟩ .fell h
  | (.returned v, h) => Ends oracle program ⟨program, []⟩ (.returned v) h
  | (.broke, _) => False
  | (.cut, h) => ∃ ahead, Gets oracle program ⟨program, []⟩ ⟨ahead, h⟩ ∧ rounds ≤ h.length

section SameRuns

variable {program : List Line} {exec : Oracle → Nat → Signal × Trace}

/-- At most one thing is observed in every line. -/
theorem Gets.length_le {oracle : Oracle} {n : Nat} {ahead : List Line} {h : Trace}
    (hn : runLines oracle program n ⟨program, []⟩ = .going ⟨ahead, h⟩) : h.length ≤ n := by
  obtain ⟨seen, hlength, hseen⟩ := runLines_trace oracle program n ⟨program, []⟩
  rw [hn] at hseen
  have heq : h = seen := hseen
  rw [heq]
  exact hlength

/-- All that an execution observes is observed in a run. -/
theorem Tracks.exists_trace {oracle : Oracle} {rounds : Nat} {r : Signal × Trace}
    (h : Tracks oracle program rounds r) :
    ∃ n, (runLines oracle program n ⟨program, []⟩).trace = r.2 := by
  obtain ⟨signal, trace⟩ := r
  cases signal with
  | done =>
    obtain ⟨n, hn⟩ := h
    exact ⟨n, by rw [hn]; rfl⟩
  | broke => exact False.elim h
  | returned v =>
    obtain ⟨n, hn⟩ := h
    exact ⟨n, by rw [hn]; rfl⟩
  | cut =>
    obtain ⟨ahead, ⟨n, hn⟩, -⟩ := h
    exact ⟨n, by rw [hn]; rfl⟩

/-- An execution with more rounds than a run has steps has observed all that the run has. -/
theorem Tracks.beginning {oracle : Oracle} {rounds n : Nat} {r : Signal × Trace}
    (h : Tracks oracle program rounds r) (hlt : n < rounds) :
    (runLines oracle program n ⟨program, []⟩).trace <+: r.2 := by
  -- an ended run observes nothing more, and a cut one is further on than the run
  have hlater : ∀ m, n ≤ m ∨ (∃ o trace, runLines oracle program m ⟨program, []⟩ = .ended o trace) →
      (runLines oracle program n ⟨program, []⟩).trace <+:
        (runLines oracle program m ⟨program, []⟩).trace := by
    intro m hm
    by_cases hle : n ≤ m
    · exact runLines_trace_mono hle _
    · obtain ⟨o, trace, hended⟩ := hm.resolve_left hle
      have hsame := runLines_of_ended hended (Nat.le_of_not_le hle)
      exact ⟨[], by rw [List.append_nil, hsame, hended]⟩
  obtain ⟨signal, trace⟩ := r
  cases signal with
  | done =>
    obtain ⟨m, hm⟩ := h
    have hbegin := hlater m (.inr ⟨_, _, hm⟩)
    rw [hm] at hbegin
    exact hbegin
  | broke => exact False.elim h
  | returned v =>
    obtain ⟨m, hm⟩ := h
    have hbegin := hlater m (.inr ⟨_, _, hm⟩)
    rw [hm] at hbegin
    exact hbegin
  | cut =>
    obtain ⟨ahead, ⟨m, hm⟩, hrounds⟩ := h
    have hlength := Gets.length_le hm
    have hbegin := hlater m (.inl (by omega))
    rw [hm] at hbegin
    exact hbegin

/-- Lines that follow an execution show the same as it does. -/
theorem sameRuns_of_tracks (h : ∀ oracle rounds, Tracks oracle program rounds (exec oracle rounds)) :
    SameRuns program exec := by
  -- beginnings: a run of `n` lines sees no more than an execution of `n + 1` rounds, which in turn is
  -- seen in some run; ends: an execution with more rounds than the run has lines is not cut off
  refine ⟨fun oracle seen => ⟨?_, ?_⟩, fun oracle o trace => ⟨?_, ?_⟩⟩
  · rintro ⟨n, hseen⟩
    exact ⟨n + 1, hseen.trans ((h oracle (n + 1)).beginning (Nat.lt_succ_self n))⟩
  · rintro ⟨rounds, hseen⟩
    obtain ⟨n, hn⟩ := (h oracle rounds).exists_trace
    exact ⟨n, hn ▸ hseen⟩
  · rintro ⟨n, hn⟩
    have htracks := h oracle (n + 1)
    refine ⟨n + 1, ?_⟩
    cases hexec : exec oracle (n + 1) with
    | mk signal trace' =>
      rw [hexec] at htracks
      cases signal with
      | done =>
        obtain ⟨rfl, rfl⟩ := Ends.unique ⟨n, hn⟩ htracks
        rfl
      | broke => exact False.elim htracks
      | returned v =>
        obtain ⟨rfl, rfl⟩ := Ends.unique ⟨n, hn⟩ htracks
        rfl
      | cut =>
        obtain ⟨ahead, ⟨m, hm⟩, hrounds⟩ := htracks
        have hlength := Gets.length_le hm
        rw [runLines_of_ended hn (by omega)] at hm
        cases hm
  · rintro ⟨rounds, hexec⟩
    have htracks := h oracle rounds
    rw [hexec] at htracks
    cases o with
    | fell => exact htracks
    | returned v => exact htracks

end SameRuns

end ScriptPir

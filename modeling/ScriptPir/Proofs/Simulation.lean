import ScriptPir.Proofs.Machine
import ScriptPir.Proofs.ScriptLowering

/-!
# Lines do what statements say

`follows_stmt` — the lines of a statement, run from any point where they stand in a program, get where
the execution of the statement gets: behind them, to the exit of the loop around, or out of the
subroutine. What makes this go through is that every label stands in the program once, so a jump goes
to the place where its construct has put it.

`control_flow_preserved` puts this together with the walk: the main part and all functions of a parsed
program show, as lines, what they show as statements.

* `Follows` — a run of the lines gets where an execution of the statement gets, with the same trace in
  front;
* `follows_loop` — loops, by induction on the number of rounds that the execution is given;
* `follows_items` — the main part of a program.
-/

namespace ScriptPir

open Shape

section Steps

variable {oracle : Oracle} {program ahead post : List Line} {h : Trace}

/-! ## Steps

How a run gets over the lines of one piece: code, a jump, a label, a test. All jumps of a construct
go to labels that stand in it, which `behind_of_suffix` finds from the place of the construct in the
program. -/

/-- In a program whose labels are all different, a label leads to where it stands. -/
theorem behind_of_suffix {l : Label} (hnodup : (labelsOf program).Nodup)
    (hsuffix : .label l :: post <:+ program) : behind l program = some post := by
  obtain ⟨before, rfl⟩ := hsuffix
  induction before with
  | nil => exact if_pos rfl
  | cons line before ih =>
    cases line with
    | instr i => exact ih hnodup
    | label m =>
      rw [List.cons_append, labelsOf, List.nodup_cons] at hnodup
      have hne : m ≠ l := by
        rintro rfl
        exact hnodup.1 (by simp [labelsOf])
      rw [List.cons_append, behind, if_neg hne]
      exact ih hnodup.2

/-- An instruction that is no jump is observed, and the next line follows. -/
theorem stepLine_plain {i : Instr} (hi : i.isControl = false) :
    stepLine oracle program ⟨.instr i :: ahead, h⟩ = .going ⟨ahead, h ++ [.run i]⟩ := by
  cases i <;> first | rfl | cases hi

/-- A jump leads behind its label. -/
theorem gets_jump {l : Label} (hl : behind l program = some post) :
    Gets oracle program ⟨.instr (.jump l) :: ahead, h⟩ ⟨post, h⟩ := by
  refine .step ?_ (.refl _)
  show jumpTo program l h = _
  rw [jumpTo, hl]

theorem gets_label {l : Label} :
    Gets oracle program ⟨.label l :: ahead, h⟩ ⟨ahead, h⟩ := .step rfl (.refl _)

/-- Code without jumps is observed as a whole. -/
theorem gets_instrs {code : List Instr} (hplain : Plain code) :
    Gets oracle program ⟨instrs code ++ ahead, h⟩ ⟨ahead, h.after code⟩ := by
  induction code generalizing h with
  | nil =>
    rw [Trace.after, List.map_nil, List.append_nil]
    exact .refl _
  | cons i code ih =>
    refine .step (stepLine_plain (hplain i List.mem_cons_self)) ?_
    have hrest := ih (h := h ++ [.run i]) fun j hj => hplain j (List.mem_cons_of_mem _ hj)
    rw [Trace.after, List.append_assoc] at hrest
    exact hrest

variable {E : Emission} {c : Cond}

/-- A test goes on with the next line if it does not jump. -/
theorem gets_next {negated : Bool} {l : Label} {h₁ : Trace}
    (hexec : c.exec E oracle h = (negated, h₁)) :
    Gets oracle program
      ⟨instrs (E.code c.expr.id) ++ .instr (.branch negated (E.value c.expr.id) l) :: ahead, h⟩
      ⟨ahead, h₁⟩ := by
  obtain ⟨houtcome, rfl⟩ := Prod.mk.inj hexec
  refine (gets_instrs (E.plain _)).trans (.step ?_ (.refl _))
  exact if_pos houtcome

/-- A test goes on behind its label if it jumps. -/
theorem gets_target {outcome negated : Bool} {l : Label} {h₁ : Trace}
    (hexec : c.exec E oracle h = (outcome, h₁)) (hne : outcome ≠ negated)
    (hl : behind l program = some post) :
    Gets oracle program
      ⟨instrs (E.code c.expr.id) ++ .instr (.branch negated (E.value c.expr.id) l) :: ahead, h⟩
      ⟨post, h₁⟩ := by
  obtain ⟨rfl, rfl⟩ := Prod.mk.inj hexec
  refine (gets_instrs (E.plain _)).trans (.step ?_ (.refl _))
  refine (if_neg hne).trans ?_
  rw [jumpTo, hl]

end Steps

/-- A condition is observed when it is tested. -/
theorem length_lt_of_exec {E : Emission} {oracle : Oracle} {c : Cond} {h h₁ : Trace} {outcome : Bool}
    (hexec : c.exec E oracle h = (outcome, h₁)) : h.length < h₁.length := by
  obtain ⟨-, rfl⟩ := Prod.mk.inj hexec
  simp only [Trace.after, List.length_append, List.length_singleton]
  omega

/-! ## Following an execution

The induction hypothesis: where a run gets to for each way in which an execution goes on. The case of
an execution that was cut short counts observations, since the run is then somewhere inside of the
lines. -/

/-- Where the lines at a point get to if an execution gets somewhere, with the lines `post` behind what
is executed, in a loop with a given exit. -/
def Follows (oracle : Oracle) (program : List Line) (exit : Option Label) (rounds : Nat) (p : Point)
    (post : List Line) : Signal × Trace → Prop
  | (.done, h) => Gets oracle program p ⟨post, h⟩
  | (.broke, h) => ∃ l ahead, exit = some l ∧ behind l program = some ahead ∧
    Gets oracle program p ⟨ahead, h⟩
  | (.returned v, h) => Ends oracle program p (.returned v) h
  | (.cut, h) => ∃ ahead, Gets oracle program p ⟨ahead, h⟩ ∧
    p.trace.length + rounds ≤ h.length

namespace Follows

variable {oracle : Oracle} {program mid post : List Line} {exit : Option Label} {rounds : Nat}
  {p q : Point} {r : Signal × Trace}

/-- What follows an execution later follows it from before, with as many rounds more as things were
observed on the way. -/
theorem of_gets_add {k : Nat} (hp : Gets oracle program p q)
    (hk : p.trace.length + k ≤ q.trace.length)
    (h : Follows oracle program exit rounds q post r) :
    Follows oracle program exit (rounds + k) p post r := by
  obtain ⟨signal, trace⟩ := r
  cases signal with
  | done => exact hp.trans h
  | broke =>
    obtain ⟨l, ahead, hl, hbehind, hgets⟩ := h
    exact ⟨l, ahead, hl, hbehind, hp.trans hgets⟩
  | returned v => exact hp.ends h
  | cut =>
    obtain ⟨ahead, hgets, hlength⟩ := h
    exact ⟨ahead, hp.trans hgets, by omega⟩

theorem of_gets (hp : Gets oracle program p q) (h : Follows oracle program exit rounds q post r) :
    Follows oracle program exit rounds p post r :=
  of_gets_add (k := 0) hp hp.trace.length_le h

/-- Once an execution is done, its lines may get on to a later point. -/
theorem then_gets (h : Follows oracle program exit rounds p mid r)
    (hmid : ∀ trace, Gets oracle program ⟨mid, trace⟩ ⟨post, trace⟩) :
    Follows oracle program exit rounds p post r := by
  obtain ⟨signal, trace⟩ := r
  cases signal with
  | done => exact Gets.trans h (hmid trace)
  | broke | returned | cut => exact h

end Follows

/-! ## Constructs

One lemma for an arm and one for a loop, with the lines of the body as a parameter. The loop is by
induction on the rounds. -/

/-- A branch without a label behind its arms has no further arms. -/
theorem Shape.Arms.eq_none_of_finish {next : Nat} (a : Arms) (h : a.finish next = Option.none) :
    a = .none := by
  cases a with
  | none => rfl
  | last | elsif => cases h

section Constructs

variable {E : Emission} {oracle : Oracle} {program body post tail : List Line} {exit : Option Label}
  {rounds : Nat} {c : Cond} {h : Trace}

/-- The end of an arm that was taken leads behind its branch. -/
theorem gets_finish (hnodup : (labelsOf program).Nodup) {finish : Option Label} {onFalse : Label}
    (htail : finish = none → tail = post)
    (hfinish : ∀ l, finish = some l → .label l :: post <:+ program) :
    Gets oracle program
      ⟨finish.toList.map (.instr <| .jump ·) ++ .label onFalse :: tail, h⟩ ⟨post, h⟩ := by
  cases finish with
  | none =>
    rw [htail rfl]
    exact gets_label
  | some l => exact gets_jump (behind_of_suffix hnodup (hfinish l rfl))

/-- An arm: if its condition holds, or fails for a negated one, the body is executed and leads behind
the branch; else the lines behind the arm come next. -/
theorem follows_arm (hnodup : (labelsOf program).Nodup) {negated : Bool} {onTrue onFalse : Label}
    {finish : Option Label} {taken other : Trace → Signal × Trace}
    (hsuffix : armLines E negated c onTrue onFalse finish body ++ tail <:+ program)
    (htail : finish = none → tail = post)
    (hfinish : ∀ l, finish = some l → .label l :: post <:+ program)
    (htaken : ∀ mid h, body ++ mid <:+ program →
      Follows oracle program exit rounds ⟨body ++ mid, h⟩ mid (taken h))
    (hother : ∀ h, Follows oracle program exit rounds ⟨tail, h⟩ post (other h)) :
    Follows oracle program exit rounds ⟨armLines E negated c onTrue onFalse finish body ++ tail, h⟩ post
      (match c.exec E oracle h with
        | (outcome, h) => if outcome = negated then other h else taken h) := by
  -- the lines one after the other, to take the places of the labels from
  have hlines : armLines E negated c onTrue onFalse finish body ++ tail =
      instrs (E.code c.expr.id) ++ Line.instr (.branch negated (E.value c.expr.id) onTrue) ::
        (Line.instr (.jump onFalse) :: Line.label onTrue :: (body ++
          (finish.toList.map (Line.instr <| .jump ·) ++ Line.label onFalse :: tail))) := by
    simp [armLines]
  rw [hlines] at hsuffix ⊢
  have hcond := (List.suffix_append _ _).trans hsuffix
  have htest := (List.suffix_cons _ _).trans hcond
  have hjump := (List.suffix_cons _ _).trans htest
  have hbody := (List.suffix_cons _ _).trans hjump
  cases hexec : c.exec E oracle h with
  | mk outcome h₁ =>
    dsimp only
    by_cases hb : outcome = negated
    -- the arm is not taken: the test falls through to a jump behind it
    · rw [if_pos hb]
      have hafter := (List.suffix_append _ _).trans ((List.suffix_append _ _).trans hbody)
      refine .of_gets ((gets_next (hb ▸ hexec)).trans ?_) (hother h₁)
      exact gets_jump (behind_of_suffix hnodup hafter)
    -- the arm is taken: the test jumps over that jump to the body
    · rw [if_neg hb]
      refine .of_gets (gets_target hexec hb (behind_of_suffix hnodup hjump)) ?_
      exact (htaken _ h₁ hbody).then_gets fun trace => gets_finish hnodup htail hfinish

/-- The lines of a loop with others behind them, one piece after the other. -/
theorem loopLines_append (E : Emission) (c : Cond) (top out : Label) (body post : List Line)
    (last : List Instr) : loopLines E c top out body (instrs last) ++ post =
      .label top :: (instrs (E.code c.expr.id) ++
        .instr (.branch true (E.value c.expr.id) out) :: (body ++ (instrs last ++
          .instr (.jump top) :: .label out :: post))) := by
  simp [loopLines]

/-- The exit of a loop is right behind it. -/
theorem behind_out (hnodup : (labelsOf program).Nodup) {top out : Label} (last : List Instr)
    (hsuffix : loopLines E c top out body (instrs last) ++ post <:+ program) :
    behind out program = some post := by
  rw [loopLines_append] at hsuffix
  have htest := (List.suffix_append _ _).trans ((List.suffix_cons _ _).trans hsuffix)
  have hlast := (List.suffix_append _ _).trans ((List.suffix_cons _ _).trans htest)
  have hjump := (List.suffix_append _ _).trans hlast
  exact behind_of_suffix hnodup ((List.suffix_cons _ _).trans hjump)

/-- A loop: every round tests the condition and executes the body. A break leads behind the loop, like
a condition that fails. -/
theorem follows_loop (hnodup : (labelsOf program).Nodup) {top out : Label} {last : List Instr}
    {run : Trace → Signal × Trace} (hlast : Plain last)
    (hsuffix : loopLines E c top out body (instrs last) ++ post <:+ program)
    (hbody : ∀ mid h, body ++ mid <:+ program →
      Follows oracle program (some out) rounds ⟨body ++ mid, h⟩ mid (run h)) :
    Follows oracle program exit rounds ⟨loopLines E c top out body (instrs last) ++ post, h⟩ post
      (loop E oracle c run last rounds h) := by
  have hout := behind_out hnodup last hsuffix
  rw [loopLines_append] at hsuffix ⊢
  have htop := behind_of_suffix hnodup hsuffix
  have hround := (List.suffix_cons _ _).trans hsuffix
  have hbodyLines := (List.suffix_cons _ _).trans ((List.suffix_append _ _).trans hround)
  -- by induction on the rounds that are left, from behind the label at the top
  have hrounds : ∀ n ≤ rounds, ∀ h, Follows oracle program exit n
      ⟨instrs (E.code c.expr.id) ++ .instr (.branch true (E.value c.expr.id) out) :: (body ++
        (instrs last ++ .instr (.jump top) :: .label out :: post)), h⟩ post
      (loop E oracle c run last n h) := by
    intro n
    induction n with
    | zero => exact fun _ h => ⟨_, .refl _, Nat.le_refl _⟩
    | succ n ih =>
      intro hle h
      rw [loop]
      cases hexec : c.exec E oracle h with
      | mk outcome h₁ =>
        have hlonger := length_lt_of_exec hexec
        cases outcome with
        | false => exact gets_target hexec (by decide) hout
        | true =>
          have hfollows := hbody _ h₁ hbodyLines
          dsimp only
          cases hrun : run h₁ with
          | mk signal h₂ =>
            rw [hrun] at hfollows
            cases signal with
            -- the next round starts with at least the test observed
            | done =>
              have hbackward : Gets oracle program _ _ :=
                Gets.trans hfollows ((gets_instrs hlast).trans (gets_jump htop))
              have hgrows : h₁.length ≤ (h₂.after last).length := hbackward.trace.length_le
              refine .of_gets_add (k := 1) ((gets_next hexec).trans hbackward) ?_ (ih (by omega) _)
              show h.length + 1 ≤ (h₂.after last).length
              omega
            | broke =>
              -- the exit that the body knows is the one of this loop
              obtain ⟨l, ahead, hl, hbehind, hleaves⟩ := hfollows
              cases hl
              rw [hout] at hbehind
              cases hbehind
              exact (gets_next hexec).trans hleaves
            | returned v => exact (gets_next hexec).ends hfollows
            | cut =>
              obtain ⟨ahead, hstays, hlength⟩ := hfollows
              refine ⟨ahead, (gets_next hexec).trans hstays, ?_⟩
              show h.length + (n + 1) ≤ h₂.length
              have hlength : h₁.length + rounds ≤ h₂.length := hlength
              omega
  exact .of_gets gets_label (hrounds rounds (Nat.le_refl _) h)

end Constructs

/-! ## Statements

By recursion on the statement. A body is followed inside of its construct, whose lines are a suffix
of the program, so the lines of the body are in front of a suffix, too. -/

section Statements

variable {E : Emission} {oracle : Oracle} {program : List Line} {rounds : Nat}

/-- A part of a loop's header does not jump. -/
theorem plain_clause (E : Emission) (c : Clause) : Plain (c.code E) := by
  intro i hi
  obtain ⟨a, -, hi⟩ := List.mem_flatMap.mp hi
  exact E.plain _ i hi

mutual

/-- The lines of a statement get where its execution gets. -/
theorem follows_stmt (hnodup : (labelsOf program).Nodup) (x : Stmt) {exit : Option Label}
    (hvalid : x.Valid exit.isSome) {next : Nat} {post : List Line}
    (hexit : ∀ l, exit = some l → ∃ ahead, behind l program = some ahead)
    (hsuffix : x.lines E exit next ++ post <:+ program) (h : Trace) :
    Follows oracle program exit rounds ⟨x.lines E exit next ++ post, h⟩ post
      (x.exec E oracle rounds h) := by
  cases x with
  | simple x => exact gets_instrs (E.plain _)
  | ret tag value =>
    cases value with
    | none => exact ⟨1, rfl⟩
    | some e =>
      rw [Stmt.lines, Stmt.exec, List.append_assoc]
      exact (gets_instrs (E.plain _)).ends ⟨1, rfl⟩
  -- a break stands only inside a loop, so there is an exit to jump to
  | brk tag =>
    obtain ⟨l, rfl⟩ := Option.isSome_iff_exists.mp hvalid
    obtain ⟨ahead, hahead⟩ := hexit l rfl
    exact ⟨l, ahead, rfl, hahead, gets_jump hahead⟩
  | branch tag negated c tags body arms =>
    rw [Stmt.lines, List.append_assoc, List.append_assoc] at hsuffix ⊢
    have harms := (List.suffix_append _ _).trans hsuffix
    have hfinish := (List.suffix_append _ _).trans harms
    rw [Stmt.exec]
    refine follows_arm hnodup hsuffix (fun hnone => ?_) (fun l hl => ?_) (fun mid h hmid => ?_)
      fun h => ?_
    -- without a label behind all arms there is only this one
    · have hsingle := arms.eq_none_of_finish hnone
      rw [hsingle]
      rfl
    · rw [hl] at hfinish
      exact hfinish
    · exact follows_stmts hnodup body hvalid.2.1 hexit hmid h
    · exact follows_arms hnodup arms hvalid.2.2.1 hexit
        (fun hnone => arms.eq_none_of_finish hnone) harms h
  | whileLoop tag c tags body =>
    have hbody : body.Valid (some (Label.mk (next + 1))).isSome := hvalid.2
    refine follows_loop hnodup plain_nil hsuffix fun mid h hmid => ?_
    exact follows_stmts hnodup body hbody
      (fun l hl => ⟨post, Option.some.inj hl ▸ behind_out hnodup [] hsuffix⟩) hmid h
  | forLoop tag init c last tags body =>
    rw [Stmt.lines, List.append_assoc] at hsuffix ⊢
    have hloop := (List.suffix_append _ _).trans hsuffix
    have hbody : body.Valid (some (Label.mk (next + 1))).isSome := hvalid.2.2.2
    rw [Stmt.exec]
    refine .of_gets (gets_instrs (plain_clause E init)) ?_
    refine follows_loop hnodup (plain_clause E last) hloop fun mid h hmid => ?_
    exact follows_stmts hnodup body hbody
      (fun l hl => ⟨post, Option.some.inj hl ▸ behind_out hnodup (last.code E) hloop⟩) hmid h

/-- The lines of statements follow their execution. -/
theorem follows_stmts (hnodup : (labelsOf program).Nodup) (b : Stmts) {exit : Option Label}
    (hvalid : b.Valid exit.isSome) {next : Nat} {post : List Line}
    (hexit : ∀ l, exit = some l → ∃ ahead, behind l program = some ahead)
    (hsuffix : b.lines E exit next ++ post <:+ program) (h : Trace) :
    Follows oracle program exit rounds ⟨b.lines E exit next ++ post, h⟩ post
      (b.exec E oracle rounds h) := by
  cases b with
  | nil => exact .refl _
  | cons first rest =>
    rw [Stmts.lines, List.append_assoc] at hsuffix ⊢
    have hfirst := follows_stmt hnodup first hvalid.1 hexit hsuffix h
    have hrest := (List.suffix_append _ _).trans hsuffix
    rw [Stmts.exec]
    cases hexec : first.exec E oracle rounds h with
    | mk signal h₁ =>
      rw [hexec] at hfirst
      cases signal with
      | done => exact .of_gets hfirst (follows_stmts hnodup rest hvalid.2 hexit hrest h₁)
      | broke | returned | cut => exact hfirst

/-- The lines of further arms follow their execution. -/
theorem follows_arms (hnodup : (labelsOf program).Nodup) (a : Arms) {exit finish : Option Label}
    (hvalid : a.Valid exit.isSome) {next : Nat} {post : List Line}
    (hexit : ∀ l, exit = some l → ∃ ahead, behind l program = some ahead)
    (hfinish : finish = none → a = .none)
    (hsuffix : a.lines E exit finish next ++ (finish.toList.map .label ++ post) <:+ program)
    (h : Trace) :
    Follows oracle program exit rounds
      ⟨a.lines E exit finish next ++ (finish.toList.map .label ++ post), h⟩ post
      (a.exec E oracle rounds h) := by
  -- behind the last arm the label of the branch may still have to be passed
  have hend : ∀ trace, Gets oracle program ⟨finish.toList.map .label ++ post, trace⟩
      ⟨post, trace⟩ := by
    intro trace
    cases finish with
    | none => exact .refl _
    | some l => exact gets_label
  cases a with
  | none => exact hend h
  | last tag tags body => exact (follows_stmts hnodup body hvalid hexit hsuffix h).then_gets hend
  | elsif tag c tags body rest =>
    rw [Arms.lines, List.append_assoc] at hsuffix ⊢
    have hrest := (List.suffix_append _ _).trans hsuffix
    rw [Arms.exec]
    refine follows_arm hnodup hsuffix (fun hnone => ?_) (fun l hl => ?_) (fun mid h hmid => ?_)
      fun h => ?_
    · cases hfinish hnone
    · have hlabel := (List.suffix_append _ _).trans hrest
      rw [hl] at hlabel
      exact hlabel
    · exact follows_stmts hnodup body hvalid.2.1 hexit hmid h
    · refine follows_arms hnodup rest hvalid.2.2 hexit (fun hnone => ?_) hrest h
      cases hfinish hnone

end

end Statements

/-! ## Programs

The main part and each function are subroutines of their own. In both, no loop is around the
statements, so an execution is never left by a break. -/

/-- Executes the main part of a program, which is what is not in its functions. -/
def mainExec (E : Emission) (oracle : Oracle) (rounds : Nat) : List Item → Trace → Signal × Trace
  | [], h => (.done, h)
  | .function .. :: items, h => mainExec E oracle rounds items h
  | .stmt x :: items, h =>
    match x.exec E oracle rounds h with
    | (.done, h) => mainExec E oracle rounds items h
    | stopped => stopped

/-- Executes a function: its parameters are declared, and its body is executed. -/
def Shape.FunctionParts.exec (E : Emission) (oracle : Oracle) (rounds : Nat) (parts : FunctionParts)
    (body : Stmts) : Signal × Trace :=
  body.exec E oracle rounds (Trace.after [] (parts.params.map fun p => .param p.text))

section Programs

variable {E : Emission} {oracle : Oracle} {program : List Line} {rounds : Nat}

/-- The main part follows the execution of what is not in functions. -/
theorem follows_items (hnodup : (labelsOf program).Nodup) (items : List Item)
    (hvalid : ∀ i ∈ items, i.Valid) {next : Nat} {post : List Line}
    (hsuffix : mainLines E items next ++ post <:+ program) (h : Trace) :
    Follows oracle program none rounds ⟨mainLines E items next ++ post, h⟩ post
      (mainExec E oracle rounds items h) := by
  -- on the items: a function has no lines in the main part, and a statement that ends the run ends all
  -- of it
  induction items generalizing next h with
  | nil => exact .refl _
  | cons i items ih =>
    have hitems : ∀ j ∈ items, j.Valid := fun j hj => hvalid j (List.mem_cons_of_mem _ hj)
    rw [mainLines, List.append_assoc] at hsuffix ⊢
    have hrest := (List.suffix_append _ _).trans hsuffix
    cases i with
    | function parts body => exact ih hitems hrest h
    | stmt x =>
      have hx : x.Valid (none : Option Label).isSome := hvalid (.stmt x) List.mem_cons_self
      have hfirst : Follows oracle program none rounds _ _ (x.exec E oracle rounds h) :=
        follows_stmt hnodup x hx (by simp) hsuffix h
      rw [mainExec]
      cases hexec : x.exec E oracle rounds h with
      | mk signal h₁ =>
        rw [hexec] at hfirst
        cases signal with
        | done => exact .of_gets hfirst (ih hitems hrest h₁)
        | broke | returned | cut => exact hfirst

/-- The main part of a program has only the labels that the program takes, and has each at most once. -/
theorem mainLines_labels (E : Emission) (items : List Item) (next : Nat) :
    Within next (next + mainSpan items) (labelsOf (mainLines E items next)) := by
  induction items generalizing next with
  | nil => exact .nil _ _
  | cons i items ih =>
    have hfirst : Within next (next + i.span) (labelsOf (i.lines E next)) := by
      cases i with
      | stmt x => exact x.lines_labels E none next
      | function parts body => exact .nil _ _
    rw [mainLines, mainSpan, labelsOf_append, ← Nat.add_assoc]
    exact hfirst.append (ih _) (by omega) (by omega)

/-- Lines that follow an execution as a whole subroutine track it. -/
theorem tracks_of_follows {r : Signal × Trace}
    (h : Follows oracle program none rounds ⟨program, []⟩ [] r) : Tracks oracle program rounds r := by
  obtain ⟨signal, trace⟩ := r
  cases signal with
  | done => exact Gets.ends h ⟨1, rfl⟩
  | broke =>
    obtain ⟨l, ahead, hl, -⟩ := h
    cases hl
  | returned v => exact h
  | cut =>
    obtain ⟨ahead, hgets, hlength⟩ := h
    refine ⟨ahead, hgets, ?_⟩
    rw [List.length_nil, Nat.zero_add] at hlength
    exact hlength

/-- The main part of a program shows as lines what it shows as statements. -/
theorem sameRuns_main (E : Emission) {items : List Item} (hvalid : ∀ i ∈ items, i.Valid)
    (next : Nat) :
    SameRuns (mainLines E items next) fun oracle rounds => mainExec E oracle rounds items [] := by
  refine sameRuns_of_tracks fun oracle rounds => tracks_of_follows ?_
  have hnodup := (mainLines_labels E items next).nodup
  have hsuffix : mainLines E items next ++ [] <:+ mainLines E items next :=
    ⟨[], by rw [List.nil_append, List.append_nil]⟩
  have hfollows : Follows oracle _ none rounds _ [] (mainExec E oracle rounds items []) :=
    follows_items hnodup items hvalid hsuffix []
  rw [List.append_nil] at hfollows
  exact hfollows

/-- A function shows as lines what it shows as statements. -/
theorem sameRuns_function (E : Emission) (parts : FunctionParts) {body : Stmts}
    (hvalid : body.Valid false) (next : Nat) :
    SameRuns (parts.lines E body next) fun oracle rounds => parts.exec E oracle rounds body := by
  refine sameRuns_of_tracks fun oracle rounds => tracks_of_follows ?_
  -- parameters are plain, so the labels of a function are those of its body
  have hnodup : (labelsOf (parts.lines E body next)).Nodup := by
    rw [FunctionParts.lines, labelsOf_append, labelsOf_instrs]
    exact (body.lines_labels E none next).nodup
  have hparams : Plain (parts.params.map fun p => Instr.param p.text) := by
    intro i hi
    obtain ⟨p, -, rfl⟩ := List.mem_map.mp hi
    rfl
  have hbody : body.Valid (none : Option Label).isSome := hvalid
  have hsuffix : body.lines E none next ++ [] <:+ parts.lines E body next := by
    rw [List.append_nil]
    exact List.suffix_append _ _
  have hfollows : Follows oracle _ none rounds _ [] (parts.exec E oracle rounds body) :=
    follows_stmts hnodup body hbody (by simp) hsuffix _
  rw [List.append_nil] at hfollows
  exact .of_gets (gets_instrs hparams) hfollows

end Programs

/-- An emission is a record of the walk of a tree: the walk enters every node, and for every simple
statement and every expression the emission has the instructions that were appended, and for an
expression the value that was stored. Calls whose result is not used are part of their statement. -/
def Emission.Records (E : Emission) (root : Node) (s : Lowering) : Prop :=
  ∀ m ∈ root.nodesOnto [], ∃ t, Entered [root] s m t ∧
    (m.kind.isSimple = true ∨ (m.kind.isExpr = true ∧ t.stmtCall ≠ m.id) →
      ∃ t', (Lower.walk m).run t = .ok ((), t') ∧ Appended t t' (E.code m.id) ∧
        (m.kind.isExpr = true → t'.value m.id = some (E.value m.id)))

/-- An emission that agrees with the walk of a tree is a record of it. -/
theorem Emission.Agrees.records {E : Emission} {n : Node} {s s' : Lowering} (hE : E.Agrees [n] s)
    (hvisits : Visits n s s') : E.Records n s := by
  intro m hmem
  obtain ⟨t, hentered⟩ := exists_entered hvisits.run hmem
  -- what an expression or a statement appends is known from its shape, which every visit has
  refine ⟨t, hentered, fun hkind => ?_⟩
  cases hvisits.fits m t hentered with
  -- only expressions and simple statements are recorded
  | other hexpr hsimple =>
    rw [hexpr, hsimple] at hkind
    simp at hkind
  | @unused parts args t hcall =>
    rcases hkind with hkind | ⟨-, hused⟩
    · cases hkind
    · exact absurd hcall hused
  | @simple x t hindexed hready hcall =>
    obtain ⟨t', hwalk, hwrites, -⟩ :=
      visits_simple_emitted x hindexed hready hcall (hE.entered hentered)
    refine ⟨t', hwalk.run, hwrites.passage.appended hready.buffers, fun hexpr => ?_⟩
    rw [x.kind_isExpr] at hexpr
    cases hexpr
  | @expr e t hindexed hready =>
    obtain ⟨t', hwalk, hwrites, hvalue, -⟩ :=
      visits_expr_emitted e hindexed hready (hE.entered hentered)
    have happended := hwrites.passage.appended hready.buffers
    rw [← Expr.node_id] at happended hvalue
    exact ⟨t', hwalk.run, happended, fun _ => hvalue⟩

/-- Lowering preserves control flow. For every parsed program, the lines of the main part show what its
statements show, with the instructions recorded for simple statements and conditions; and so do the
lines of every function when its definition is left. -/
theorem control_flow_preserved {src : Source} {root : Node} (hparse : parse src = .ok root)
    (label stdlib : String) :
    ∃ (script : Script) (E : Emission) (final : Lowering) (program : Program), root = script.node ∧
      E.Records root (.started label stdlib) ∧ lower root label stdlib = .ok final ∧
      final.program = some program ∧
      SameRuns program.main.toList (fun oracle rounds => mainExec E oracle rounds script.items []) ∧
      ∀ parts body, .function parts body ∈ script.items → ∃ t t' r,
        Entered [root] (.started label stdlib) (Item.function parts body).node t ∧
        (Lower.walk (Item.function parts body).node).run t = .ok ((), t') ∧
        t'.functions.lookup? parts.name.text = some r ∧
        SameRuns r.code.toList (fun oracle rounds => parts.exec E oracle rounds body) := by
  obtain ⟨script, E, s, rfl, hvalid, hnodup, hE, hlowers⟩ := exists_lowers hparse label stdlib
  obtain ⟨program, hprogram, hmain⟩ := hlowers.main
  have hlower := lower_eq_of_walk hnodup hlowers.visits.run
  refine ⟨script, E, _, program, rfl, hE.records hlowers.visits, hlower, hprogram, ?_, ?_⟩
  · rw [hmain]
    exact sameRuns_main E hvalid 0
  · intro parts body hmem
    obtain ⟨t, t', r, hentered, hrun, hlookup, hcode⟩ := hlowers.functions parts body hmem
    refine ⟨t, t', r, hentered, hrun, hlookup, ?_⟩
    rw [hcode]
    exact sameRuns_function E parts (hvalid _ hmem) _

/-- A program with loops inside each other, a break in a branch of the inner one, and a function. -/
def nested : Source := .ofString "def f(n)
  while n > 0
    for(i = 0; i < n; i += 1)
      if i == 3
        break
      elsif n < i
        return i
      else
        g(i)
      end
    end
    n -= 1
  end
end
unless x
  x = f(1)
end
"

/-- Applied to the program above. -/
theorem control_flow_preserved_nested :
    ∃ root, parse nested = .ok root ∧
      ∃ (script : Script) (E : Emission) (final : Lowering) (program : Program), root = script.node ∧
        E.Records root (.started "nested" defaultStdlib) ∧
        lower root "nested" defaultStdlib = .ok final ∧ final.program = some program ∧
        SameRuns program.main.toList
          (fun oracle rounds => mainExec E oracle rounds script.items []) ∧
        ∀ parts body, .function parts body ∈ script.items → ∃ t t' r,
          Entered [root] (.started "nested" defaultStdlib) (Item.function parts body).node t ∧
          (Lower.walk (Item.function parts body).node).run t = .ok ((), t') ∧
          t'.functions.lookup? parts.name.text = some r ∧
          SameRuns r.code.toList (fun oracle rounds => parts.exec E oracle rounds body) := by
  have hok : (parse nested).isOk = true := by decide +kernel
  cases hparse : parse nested with
  | error e => rw [hparse] at hok; cases hok
  | ok root => exact ⟨root, rfl, control_flow_preserved hparse "nested" defaultStdlib⟩

end ScriptPir

import ScriptPir.Proofs.Legs

/-!
# Where the code of legs is placed

The lines of a statement are the code of its legs with labels, jumps and returns in between. The legs are
not always placed in the order of the walk: the step of a loop's header stands behind the body.

`Spread E legs lines` says that much and no more, so that what depends neither on the order of the legs nor
on the control flow can be shown of the lines at once (`Spread.perm_filterMap`, `Spread.closed`).

A permutation is all that is needed to count: if every leg writes a register once, so do the lines. For
properties of single lines not even the permutation matters, since each line is that of a leg or one of
the few kinds in between.
-/

namespace ScriptPir

/-! ## Lines that lead elsewhere

Labels, jumps, branches and returns are what a construct adds to the code of its legs. -/

/-- Whether a line is a label, or an instruction that may go on elsewhere. -/
def Line.isControl : Line → Bool
  | .instr i => i.isControl
  | .label _ => true

/-- Something that stands in two lists is in the first, or in the second behind all of the first. -/
theorem split_append {α : Type} {xs ys before after : List α} {a : α}
    (h : xs ++ ys = before ++ a :: after) :
    (∃ rest, xs = before ++ a :: rest ∧ after = rest ++ ys) ∨
      ∃ rest, before = xs ++ rest ∧ ys = rest ++ a :: after := by
  obtain ⟨rest, hbefore, hys⟩ | ⟨rest, hxs, hrest⟩ := List.append_eq_append_iff.mp h
  · exact .inr ⟨rest, hbefore, hys⟩
  · cases rest with
    | nil => exact .inr ⟨[], by simpa using hxs.symm, hrest.symm⟩
    | cons b rest =>
      obtain ⟨rfl, hafter⟩ := List.cons.inj hrest
      exact .inl ⟨rest, hxs, hafter⟩

open Shape

/-! ## The code of legs in any order

The relation forgets the order of the legs and the places of the control lines, which is all that is
needed of registers and declarations. -/

/-- Some lines are the code of some legs in any order, with control lines around it. -/
inductive Spread (E : Emission) : List Leg → List Line → Prop where
  | control {lines : List Line} (h : ∀ line ∈ lines, line.isControl = true) : Spread E [] lines
  | leg (x : Leg) : Spread E [x] (instrs (E.code x.id))
  | append {xs ys : List Leg} {lines lines' : List Line} (h : Spread E xs lines)
      (h' : Spread E ys lines') : Spread E (xs ++ ys) (lines ++ lines')
  | perm {xs ys : List Leg} {lines : List Line} (hperm : xs.Perm ys) (h : Spread E xs lines) :
      Spread E ys lines

namespace Spread

variable {E : Emission} {legs : List Leg} {lines : List Line}

/-- What is gathered from lines that are no control flow is what the legs have. -/
theorem perm_filterMap {β : Type} {f : Line → Option β}
    (hf : ∀ line, line.isControl = true → f line = none) (h : Spread E legs lines) :
    (lines.filterMap f).Perm (legs.flatMap fun x => (instrs (E.code x.id)).filterMap f) := by
  induction h with
  | control h =>
    rw [List.filterMap_eq_nil_iff.mpr fun line hline => hf line (h line hline)]
    exact .refl _
  | leg x => exact .of_eq (List.append_nil _).symm
  | append _ _ ih ih' =>
    rw [List.filterMap_append, List.flatMap_append]
    exact ih.append ih'
  | perm hperm _ ih => exact ih.trans (hperm.flatMap_right _)

/-- What holds of the code of every leg and of control lines holds of the lines, if it holds of two pieces
together whenever it holds of both. -/
theorem closed {Q : List Line → Prop} (hcontrol : ∀ lines, (∀ line ∈ lines, line.isControl = true) → Q lines)
    (happend : ∀ xs ys, Q xs → Q ys → Q (xs ++ ys)) (h : Spread E legs lines)
    (hlegs : ∀ x ∈ legs, Q (instrs (E.code x.id))) : Q lines := by
  induction h with
  | control h => exact hcontrol _ h
  | leg x => exact hlegs x List.mem_cons_self
  | append _ _ ih ih' =>
    apply happend
    · exact ih fun x hx => hlegs x (List.mem_append_left _ hx)
    · exact ih' fun x hx => hlegs x (List.mem_append_right _ hx)
  | perm hperm _ ih => exact ih fun x hx => hlegs x (hperm.mem_iff.mp hx)

theorem nil : Spread E [] [] := .control (List.forall_mem_nil _)

theorem then_control {tail : List Line} (h : Spread E legs lines)
    (htail : ∀ line ∈ tail, line.isControl = true) : Spread E legs (lines ++ tail) := by
  have happend := h.append (.control (E := E) htail)
  rwa [List.append_nil] at happend

theorem after_control {head : List Line} (hhead : ∀ line ∈ head, line.isControl = true)
    (h : Spread E legs lines) : Spread E legs (head ++ lines) :=
  (Spread.control (E := E) hhead).append h

end Spread

namespace Shape

variable (E : Emission)

/-! ## Statements

Each construct is put together from its parts by `append`; the loop with a header needs `perm`
besides, for its step. -/

/-- The code of a part of a loop's header is that of its assignments. -/
theorem spread_clause (c : Clause) : Spread E c.legs (instrs (c.code E)) := by
  unfold Clause.code Clause.legs
  induction c.assignments with
  | nil => exact .nil
  | cons a as ih =>
    rw [List.flatMap_cons, instrs, List.map_append]
    exact (Spread.leg (.simple (.assignment a))).append ih

/-- An arm is the code of its condition and that of its body. -/
theorem spread_armLines (negated : Bool) (cond : Cond) (onTrue onFalse : Label)
    (finish : Option Label) {legs : List Leg} {body : List Line} (h : Spread E legs body) :
    Spread E (.value cond.expr :: legs) (armLines E negated cond onTrue onFalse finish body) := by
  have htail : Spread E legs (body ++ (finish.toList.map (Line.instr <| .jump ·) ++ [.label onFalse])) :=
    h.then_control (by cases finish <;> simp [Line.isControl, Instr.isControl])
  have hhead : Spread E legs ([Line.instr (.branch negated (E.value cond.expr.id) onTrue),
      .instr (.jump onFalse), .label onTrue] ++ _) :=
    htail.after_control (by simp [Line.isControl, Instr.isControl])
  exact (Spread.leg (.value cond.expr)).append hhead

/-- A loop is the code of its condition, its body and its step. -/
theorem spread_loopLines (cond : Cond) (top out : Label) {legs steps : List Leg}
    {body step : List Line} (h : Spread E legs body) (hstep : Spread E steps step) :
    Spread E (.value cond.expr :: (legs ++ steps)) (loopLines E cond top out body step) := by
  have htail : Spread E steps (step ++ [Line.instr (.jump top), .label out]) :=
    hstep.then_control (by simp [Line.isControl, Instr.isControl])
  have hbody : Spread E (legs ++ steps)
      ([Line.instr (.branch true (E.value cond.expr.id) out)] ++ (body ++ _)) :=
    (h.append htail).after_control (by simp [Line.isControl, Instr.isControl])
  have hcond := (Spread.leg (E := E) (.value cond.expr)).append hbody
  show Spread E _ ([Line.label top] ++ _)
  exact hcond.after_control (by simp [Line.isControl])

mutual

/-- The lines of a statement are the code of its legs, with control lines around it. -/
theorem Stmt.spread (x : Stmt) (exit : Option Label) (next : Nat) :
    Spread E x.legs (x.lines E exit next) := by
  cases x with
  | simple x => exact .leg (.simple x)
  | ret tag value =>
    cases value with
    | none => exact .control (by simp [Stmt.lines, Line.isControl, Instr.isControl])
    | some e =>
      exact (Spread.leg (.value e)).then_control (by simp [Line.isControl, Instr.isControl])
  | brk tag => exact .control (by cases exit <;> simp [Stmt.lines, Line.isControl, Instr.isControl])
  | branch tag negated cond tags body arms =>
    have hfirst := spread_armLines E negated cond ⟨next⟩ ⟨next + 1⟩ (arms.finish next)
      (body.spread exit (next + arms.own))
    have harms := arms.spread exit (arms.finish next) (next + arms.own + body.span)
    refine hfirst.append (harms.then_control ?_)
    simp [Line.isControl]
  | whileLoop tag cond tags body =>
    have hloop := spread_loopLines E cond ⟨next⟩ ⟨next + 1⟩
      (body.spread (some ⟨next + 1⟩) (next + 2)) .nil
    rw [List.append_nil] at hloop
    exact hloop
  | forLoop tag init cond step tags body =>
    have hloop := spread_loopLines E cond ⟨next⟩ ⟨next + 1⟩
      (body.spread (some ⟨next + 1⟩) (next + 2)) (spread_clause E step)
    -- the step is walked before the body
    have hwalked := Spread.perm (List.Perm.cons (.value cond.expr) List.perm_append_comm) hloop
    exact (spread_clause E init).append hwalked

/-- The lines of statements are the code of their legs. -/
theorem Stmts.spread (b : Stmts) (exit : Option Label) (next : Nat) :
    Spread E b.legs (b.lines E exit next) := by
  cases b with
  | nil => exact .nil
  | cons first rest => exact (first.spread exit next).append (rest.spread exit _)

/-- The lines of further arms are the code of their legs. -/
theorem Arms.spread (a : Arms) (exit finish : Option Label) (next : Nat) :
    Spread E a.legs (a.lines E exit finish next) := by
  cases a with
  | none => exact .nil
  | last tag tags body => exact body.spread exit next
  | elsif tag cond tags body rest =>
    have hfirst := spread_armLines E false cond ⟨next⟩ ⟨next + 1⟩ finish
      (body.spread exit (next + 2))
    exact hfirst.append (rest.spread exit finish (next + 2 + body.span))

end

end Shape

end ScriptPir

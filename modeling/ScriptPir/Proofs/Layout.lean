import ScriptPir.Code.Instr
import ScriptPir.Proofs.Shape

/-!
# How statements are laid out

The lines that a statement is lowered to, as a function of the statement: `Stmt.lines`. What its simple
statements and conditions are lowered to is taken from an `Emission`; the labels are numbered on from
a given number, in the order in which a walk enters the constructs.

The step of a loop with a header is the one part that is not laid out in the order of the walk.

`Stmt.lines_labels` — a statement has only the labels that it takes, and has each at most once.

Labels are numbered as the walk enters constructs, which is before their parts are walked. So the labels
of a construct are smaller than those of its parts, and the parts take stretches one behind the other,
whatever the order of the lines.
-/

namespace ScriptPir

/-! ## Instructions that run one after the other

Jumps, branches and returns belong to constructs; what an expression or an assignment is lowered to
is plain. -/

/-- Whether an instruction may go on elsewhere than at the next one. -/
def Instr.isControl : Instr → Bool
  | .jump _ | .branch .. | .ret _ => true
  | _ => false

/-- Instructions that run one after the other. -/
def Plain (code : List Instr) : Prop := ∀ i ∈ code, i.isControl = false

theorem plain_nil : Plain [] := by
  intro i hi
  cases hi

/-- An instruction that goes on at the next one may stand in front of others. -/
theorem plain_cons {i : Instr} {code : List Instr} (hi : i.isControl = false) (h : Plain code) :
    Plain (i :: code) :=
  List.forall_mem_cons.mpr ⟨hi, h⟩

theorem plain_append {code code' : List Instr} (h : Plain code) (h' : Plain code') :
    Plain (code ++ code') :=
  List.forall_mem_append.mpr ⟨h, h'⟩

/-! ## Lines

An `Emission` stands for what a walk has emitted, so that the layout of a construct can be stated
before it is known what its conditions and simple statements are lowered to. -/

/-- What was emitted for the nodes of a tree: the instructions of simple statements and expressions,
which are no jumps, and the operands that stand for expressions. -/
structure Emission where
  code : Int → List Instr
  value : Int → Value
  plain : ∀ id, Plain (code id)

/-- Instructions as lines. -/
def instrs (code : List Instr) : List Line := code.map .instr

/-- The labels among some lines. -/
def labelsOf : List Line → List Label
  | [] => []
  | .label l :: lines => l :: labelsOf lines
  | .instr _ :: lines => labelsOf lines

/-- Two parts have the labels of the first and those of the second. -/
@[simp] theorem labelsOf_append (xs ys : List Line) :
    labelsOf (xs ++ ys) = labelsOf xs ++ labelsOf ys := by
  induction xs with
  | nil => rfl
  | cons x xs ih => cases x <;> simp [labelsOf, ih]

/-- There are no labels among instructions. -/
@[simp] theorem labelsOf_instrs (code : List Instr) : labelsOf (instrs code) = [] := by
  induction code with
  | nil => rfl
  | cons i code ih => exact ih

namespace Shape

/-! ## Layouts

Arms and loops are laid out by two functions with parameters. A branch of one arm, one of several, a
loop with a header and one without are instances of them. -/

section Layouts

variable (E : Emission)

/-- One arm of a branch. -/
def armLines (negated : Bool) (cond : Cond) (onTrue onFalse : Label) (finish : Option Label)
    (body : List Line) : List Line :=
  instrs (E.code cond.expr.id) ++
    .instr (.branch negated (E.value cond.expr.id) onTrue) :: .instr (.jump onFalse) ::
      .label onTrue :: (body ++ (finish.toList.map (.instr <| .jump ·) ++ [.label onFalse]))

/-- A loop, with what follows its body in every round. -/
def loopLines (cond : Cond) (top out : Label) (body step : List Line) : List Line :=
  .label top :: (instrs (E.code cond.expr.id) ++
    .instr (.branch true (E.value cond.expr.id) out) :: (body ++ (step ++
      [.instr (.jump top), .label out])))

/-- The instructions of assignments. -/
def Clause.code (c : Clause) : List Instr := c.assignments.flatMap fun a => E.code a.node.id

/-- The label behind all arms of a branch, if it has more than one. -/
def Arms.finish (arms : Arms) (next : Nat) : Option Label :=
  match arms with
  | .none => Option.none
  | .last .. | .elsif .. => some ⟨next + 2⟩

/-- The labels that a branch takes for itself. -/
def Arms.own (arms : Arms) : Nat :=
  match arms with
  | .none => 2
  | .last .. | .elsif .. => 3

mutual

/-- The number of labels that a statement takes. -/
def Stmt.span : Stmt → Nat
  | .simple _ | .ret .. | .brk _ => 0
  | .branch _ _ _ _ body arms => arms.own + body.span + arms.span
  | .whileLoop _ _ _ body => 2 + body.span
  | .forLoop _ _ _ _ _ body => 2 + body.span

/-- The number of labels that statements take. -/
def Stmts.span : Stmts → Nat
  | .nil => 0
  | .cons first rest => first.span + rest.span

/-- The number of labels that further arms take. -/
def Arms.span : Arms → Nat
  | .none => 0
  | .last _ _ body => body.span
  | .elsif _ _ _ body rest => 2 + body.span + rest.span

end

mutual

/-- The lines of a statement in a loop with a given exit, with labels from a given number on. -/
def Stmt.lines (exit : Option Label) : Stmt → Nat → List Line
  | .simple x, _ => instrs (E.code x.node.id)
  | .ret _ none, _ => [.instr (.ret none)]
  | .ret _ (some e), _ => instrs (E.code e.id) ++ [.instr (.ret (some (E.value e.id)))]
  | .brk _, _ => exit.toList.map (.instr <| .jump ·)
  | .branch _ negated cond _ body arms, next =>
    armLines E negated cond ⟨next⟩ ⟨next + 1⟩ (arms.finish next)
        (body.lines exit (next + arms.own)) ++
      (arms.lines exit (arms.finish next) (next + arms.own + body.span) ++
        (arms.finish next).toList.map .label)
  | .whileLoop _ cond _ body, next =>
    loopLines E cond ⟨next⟩ ⟨next + 1⟩ (body.lines (some ⟨next + 1⟩) (next + 2)) []
  | .forLoop _ init cond step _ body, next =>
    instrs (init.code E) ++
      loopLines E cond ⟨next⟩ ⟨next + 1⟩ (body.lines (some ⟨next + 1⟩) (next + 2))
        (instrs (step.code E))

/-- The lines of statements. -/
def Stmts.lines (exit : Option Label) : Stmts → Nat → List Line
  | .nil, _ => []
  | .cons first rest, next => first.lines exit next ++ rest.lines exit (next + first.span)

/-- The lines of the further arms of a branch. -/
def Arms.lines (exit finish : Option Label) : Arms → Nat → List Line
  | .none, _ => []
  | .last _ _ body, next => body.lines exit next
  | .elsif _ cond _ body rest, next =>
    armLines E false cond ⟨next⟩ ⟨next + 1⟩ finish (body.lines exit (next + 2)) ++
      rest.lines exit finish (next + 2 + body.span)

end

end Layouts

/-! ## Labels

Labels are numbered in the order of the walk, so a construct has a stretch of numbers: its own labels
first, then those of its parts, one part after the other. -/

/-- Labels that are all different, with numbers from `lo` on and below `hi`. -/
structure Within (lo hi : Nat) (labels : List Label) : Prop where
  nodup : labels.Nodup
  bounds : ∀ l ∈ labels, lo ≤ l.number ∧ l.number < hi

namespace Within

variable {lo mid hi : Nat} {xs ys : List Label}

theorem nil (lo hi : Nat) : Within lo hi [] := ⟨List.nodup_nil, by simp⟩

/-- Labels within some bounds lie within wider ones. -/
theorem mono {lo' hi' : Nat} (h : Within lo hi xs) (hlo : lo' ≤ lo) (hhi : hi ≤ hi') :
    Within lo' hi' xs := by
  refine ⟨h.nodup, fun l hl => ?_⟩
  have hbounds := h.bounds l hl
  omega

theorem perm (h : Within lo hi xs) (hperm : xs.Perm ys) : Within lo hi ys :=
  ⟨hperm.nodup_iff.mp h.nodup, fun l hl => h.bounds l (hperm.mem_iff.mpr hl)⟩

/-- Two stretches that follow each other make up one. -/
theorem append (hx : Within lo mid xs) (hy : Within mid hi ys) (hlo : lo ≤ mid) (hhi : mid ≤ hi) :
    Within lo hi (xs ++ ys) := by
  refine ⟨List.nodup_append.mpr ⟨hx.nodup, hy.nodup, ?_⟩, ?_⟩
  · rintro l hl _ hl' rfl
    have hbelow := hx.bounds l hl
    have habove := hy.bounds l hl'
    omega
  · intro l hl
    rcases List.mem_append.mp hl with hl | hl
    · have hbounds := hx.bounds l hl
      omega
    · have hbounds := hy.bounds l hl
      omega

/-- The next label in front of a stretch belongs to it. -/
theorem cons (h : Within (lo + 1) hi xs) (hhi : lo < hi) : Within lo hi (⟨lo⟩ :: xs) := by
  have hfirst : Within lo (lo + 1) [⟨lo⟩] := ⟨by simp, by simp⟩
  exact hfirst.append h (by omega) (by omega)

end Within

variable (E : Emission)

theorem labelsOf_armLines (negated : Bool) (cond : Cond) (onTrue onFalse : Label)
    (finish : Option Label) (body : List Line) :
    labelsOf (armLines E negated cond onTrue onFalse finish body) =
      onTrue :: (labelsOf body ++ [onFalse]) := by
  cases finish <;> simp [armLines, labelsOf]

/-- A loop has its two labels, around those of its body; its step has none. -/
theorem labelsOf_loopLines (cond : Cond) (top out : Label) (body : List Line) (step : List Instr) :
    labelsOf (loopLines E cond top out body (instrs step)) = top :: (labelsOf body ++ [out]) := by
  simp [loopLines, labelsOf]

/-- A pair of labels that are taken before those of a body, and stand around it. -/
theorem Within.around {next hi : Nat} {body : List Label} (h : Within (next + 2) hi body)
    (hhi : next + 2 ≤ hi) : Within next hi (⟨next⟩ :: (body ++ [⟨next + 1⟩])) := by
  have hlast : Within (next + 1) hi (⟨next + 1⟩ :: body) := h.cons (by omega)
  exact (hlast.perm (List.perm_append_singleton _ _).symm).cons (by omega)

/-- The three labels of a branch with more than one arm are taken before those of its arms. -/
theorem Within.branch {next mid hi : Nat} {body arms : List Label} (hbody : Within (next + 3) mid body)
    (harms : Within mid hi arms) (hmid : next + 3 ≤ mid) (hhi : mid ≤ hi) :
    Within next hi (⟨next⟩ :: (body ++ [⟨next + 1⟩]) ++ (arms ++ [⟨next + 2⟩])) := by
  have h₂ : Within (next + 2) hi (⟨next + 2⟩ :: (body ++ arms)) :=
    (hbody.append harms hmid hhi).cons (by omega)
  have h₁ : Within (next + 1) hi (⟨next + 1⟩ :: ⟨next + 2⟩ :: (body ++ arms)) := h₂.cons (by omega)
  have hall := h₁.cons (by omega)
  rw [List.cons_append, List.append_assoc, List.singleton_append]
  refine hall.perm (List.Perm.cons _ ?_)
  -- each of the two other labels moves behind the arm it closes
  have hfinish : (⟨next + 2⟩ :: (body ++ arms)).Perm (body ++ (arms ++ [⟨next + 2⟩])) := by
    rw [← List.append_assoc]
    exact (List.perm_append_singleton _ _).symm
  exact (hfinish.cons _).trans List.perm_middle.symm

/-- A branch takes two labels, or three if there is one behind all arms. -/
theorem Arms.finish_cases (arms : Arms) (next : Nat) :
    (arms.own = 2 ∧ arms.finish next = Option.none) ∨
      (arms.own = 3 ∧ arms.finish next = some ⟨next + 2⟩) := by
  cases arms with
  | none => exact .inl ⟨rfl, rfl⟩
  | last | elsif => exact .inr ⟨rfl, rfl⟩

mutual

/-- A statement has only the labels that it takes, and has each at most once. -/
theorem Stmt.lines_labels (s : Stmt) (exit : Option Label) (next : Nat) :
    Within next (next + s.span) (labelsOf (s.lines E exit next)) := by
  cases s with
  | simple x =>
    rw [Stmt.lines, labelsOf_instrs]
    exact .nil _ _
  | ret tag value =>
    cases value with
    | none => exact .nil _ _
    | some e =>
      rw [Stmt.lines, labelsOf_append, labelsOf_instrs]
      exact .nil _ _
  | brk tag => cases exit <;> exact .nil _ _
  | branch tag negated cond tags body arms =>
    have hbody := body.lines_labels exit (next + arms.own)
    have harms := arms.lines_labels exit (arms.finish next) (next + arms.own + body.span)
    rw [Stmt.lines, labelsOf_append, labelsOf_append, labelsOf_armLines, Stmt.span]
    -- with no further arm there is no label behind all arms
    rcases arms.finish_cases next with ⟨hown, hfinish⟩ | ⟨hown, hfinish⟩
    · rw [hfinish, hown] at harms ⊢
      rw [hown] at hbody
      have haround := hbody.around (by omega)
      rw [Option.toList_none, List.map_nil, labelsOf, List.append_nil]
      exact (haround.append harms (by omega) (by omega)).mono (by omega) (by omega)
    · rw [hfinish, hown] at harms ⊢
      rw [hown] at hbody
      exact (hbody.branch harms (by omega) (by omega)).mono (by omega) (by omega)
  | whileLoop tag cond tags body =>
    have hbody := body.lines_labels (some ⟨next + 1⟩) (next + 2)
    have haround := hbody.around (by omega)
    rw [Stmt.lines, Stmt.span]
    rw [← labelsOf_loopLines E cond ⟨next⟩ ⟨next + 1⟩ _ []] at haround
    exact haround.mono (by omega) (by omega)
  | forLoop tag init cond step tags body =>
    have hbody := body.lines_labels (some ⟨next + 1⟩) (next + 2)
    have haround := hbody.around (by omega)
    rw [Stmt.lines, Stmt.span, labelsOf_append, labelsOf_instrs]
    rw [← labelsOf_loopLines E cond ⟨next⟩ ⟨next + 1⟩ _ (step.code E)] at haround
    exact haround.mono (by omega) (by omega)

/-- Statements have only the labels that they take, each at most once. -/
theorem Stmts.lines_labels (s : Stmts) (exit : Option Label) (next : Nat) :
    Within next (next + s.span) (labelsOf (s.lines E exit next)) := by
  cases s with
  | nil => exact .nil _ _
  | cons first rest =>
    have hfirst := first.lines_labels exit next
    have hrest := rest.lines_labels exit (next + first.span)
    rw [Stmts.lines, Stmts.span, labelsOf_append, ← Nat.add_assoc]
    exact hfirst.append hrest (by omega) (by omega)

/-- Further arms have only the labels that they take, each at most once. -/
theorem Arms.lines_labels (a : Arms) (exit finish : Option Label) (next : Nat) :
    Within next (next + a.span) (labelsOf (a.lines E exit finish next)) := by
  cases a with
  | none => exact .nil _ _
  | last tag tags body => exact body.lines_labels exit next
  | elsif tag cond tags body rest =>
    have hbody := body.lines_labels exit (next + 2)
    have hrest := rest.lines_labels exit finish (next + 2 + body.span)
    rw [Arms.lines, Arms.span, labelsOf_append, labelsOf_armLines]
    have haround := hbody.around (by omega)
    exact (haround.append hrest (by omega) (by omega)).mono (by omega) (by omega)

end

end Shape

end ScriptPir

import Mathlib.Data.List.Count
import ScriptPir.Proofs.Simulation
import ScriptPir.Proofs.TargetText

/-!
# Labels and jumps of assembled programs

A program is assembled from pieces: the lines of a statement go to the main part, those of a function
to its record, and a record may be replaced, or left out because nobody calls it. What keeps labels
apart in all this is that everything at the top of a program takes its labels from a stretch of numbers
of its own (`Item.block_unique`).

`labels_of_parse` — in the program of a parsed source no label stands twice, a jump goes to a label of
its own subroutine, and constructs that are entered later have larger labels.
-/

namespace ScriptPir

/-! ## Jumps

Where a jump may go, before it is known which lines are assembled: a statement jumps to its own
labels, and to the exit of the loop that it stands in. -/

/-- The labels that some lines jump to. -/
def targetsOf (lines : List Line) : List Label := lines.filterMap Line.target?

/-- Two parts jump where the first and where the second of them does. -/
@[simp] theorem targetsOf_append (xs ys : List Line) :
    targetsOf (xs ++ ys) = targetsOf xs ++ targetsOf ys := List.filterMap_append

@[simp] theorem targetsOf_cons (line : Line) (lines : List Line) :
    targetsOf (line :: lines) = line.target?.toList ++ targetsOf lines := by
  cases h : line.target? <;> simp [targetsOf, h]

@[simp] theorem targetsOf_nil : targetsOf [] = [] := rfl

/-- Instructions that run one after the other do not jump. -/
theorem targetsOf_instrs {code : List Instr} (h : Plain code) : targetsOf (instrs code) = [] := by
  refine List.filterMap_eq_nil_iff.mpr fun line hline => ?_
  obtain ⟨i, hi, rfl⟩ := List.mem_map.mp hline
  have hplain := h i hi
  cases i <;> first | rfl | cases hplain

namespace Shape

variable (E : Emission)

/-- An arm jumps to its own two labels, to those of its body, and behind the branch. -/
theorem targetsOf_armLines (negated : Bool) (cond : Cond) (onTrue onFalse : Label)
    (finish : Option Label) (body : List Line) :
    targetsOf (armLines E negated cond onTrue onFalse finish body) =
      onTrue :: onFalse :: (targetsOf body ++ finish.toList) := by
  cases finish <;> simp [armLines, targetsOf_instrs (E.plain _), Line.target?]

/-- A loop jumps to its exit and back to its top, and where its body jumps. -/
theorem targetsOf_loopLines (cond : Cond) (top out : Label) (body : List Line) {step : List Instr}
    (hstep : Plain step) :
    targetsOf (loopLines E cond top out body (instrs step)) = out :: (targetsOf body ++ [top]) := by
  simp [loopLines, targetsOf_instrs (E.plain _), targetsOf_instrs hstep, Line.target?]

/-- A loop jumps to its own labels, if its body jumps to its own and to the exit of the loop. -/
theorem targets_loopLines {cond : Cond} {top out : Label} {body : List Line} {step : List Instr}
    (hstep : Plain step) (hbody : targetsOf body ⊆ labelsOf body ++ [out]) :
    targetsOf (loopLines E cond top out body (instrs step)) ⊆
      labelsOf (loopLines E cond top out body (instrs step)) := by
  rw [targetsOf_loopLines E cond top out body hstep, labelsOf_loopLines]
  intro l hl
  have hl' := @hbody l
  simp only [List.mem_cons, List.mem_append, List.not_mem_nil, or_false] at hl hl' ⊢
  tauto

mutual

/-- A statement jumps to its own labels, and to the exit of the loop around it. -/
theorem Stmt.lines_targets (x : Stmt) (exit : Option Label) (next : Nat) :
    targetsOf (x.lines E exit next) ⊆ labelsOf (x.lines E exit next) ++ exit.toList := by
  cases x with
  | simple x =>
    rw [Stmt.lines, targetsOf_instrs (E.plain _)]
    exact List.nil_subset _
  | ret tag value =>
    cases value with
    | none => exact List.nil_subset _
    | some e =>
      rw [Stmt.lines, targetsOf_append, targetsOf_instrs (E.plain _)]
      exact List.nil_subset _
  | brk tag => cases exit <;> simp [Stmt.lines, Line.target?]
  | branch tag negated cond tags body arms =>
    have hbody := body.lines_targets exit (next + arms.own)
    have harms := arms.lines_targets exit (arms.finish next) (next + arms.own + body.span)
    rw [Stmt.lines, targetsOf_append, targetsOf_append, targetsOf_armLines, labelsOf_append,
      labelsOf_append, labelsOf_armLines]
    intro l hl
    have hl₁ := @hbody l
    have hl₂ := @harms l
    -- the label behind all arms stands at the end of the branch, if any arm jumps to it
    cases hfinish : arms.finish next with
    | none =>
      simp only [hfinish, Option.toList_none, List.map_nil, targetsOf_nil, labelsOf, List.mem_cons,
        List.mem_append, List.not_mem_nil, or_false] at hl hl₁ hl₂ ⊢
      tauto
    | some finish =>
      simp only [hfinish, Option.toList_some, List.map_cons, List.map_nil, targetsOf_cons,
        targetsOf_nil, labelsOf, Line.target?, Option.toList_none, List.append_nil, List.mem_cons,
        List.mem_append, List.not_mem_nil, or_false] at hl hl₁ hl₂ ⊢
      tauto
  | whileLoop tag cond tags body =>
    have hbody := body.lines_targets (some ⟨next + 1⟩) (next + 2)
    exact List.subset_append_of_subset_left _ (targets_loopLines E plain_nil hbody)
  | forLoop tag init cond step tags body =>
    have hbody := body.lines_targets (some ⟨next + 1⟩) (next + 2)
    rw [Stmt.lines, targetsOf_append, targetsOf_instrs (plain_clause E init), labelsOf_append,
      labelsOf_instrs]
    exact List.subset_append_of_subset_left _ (targets_loopLines E (plain_clause E step) hbody)

/-- Statements jump to their own labels, and to the exit of the loop around them. -/
theorem Stmts.lines_targets (b : Stmts) (exit : Option Label) (next : Nat) :
    targetsOf (b.lines E exit next) ⊆ labelsOf (b.lines E exit next) ++ exit.toList := by
  cases b with
  | nil => exact List.nil_subset _
  | cons first rest =>
    have hfirst := first.lines_targets exit next
    have hrest := rest.lines_targets exit (next + first.span)
    rw [Stmts.lines, targetsOf_append, labelsOf_append]
    -- each jump is one of the first statement or of the rest, and its label stands there too
    intro l hl
    have hl₁ := @hfirst l
    have hl₂ := @hrest l
    simp only [List.mem_append] at hl hl₁ hl₂ ⊢
    tauto

/-- Further arms jump to the label behind all arms besides. -/
theorem Arms.lines_targets (a : Arms) (exit finish : Option Label) (next : Nat) :
    targetsOf (a.lines E exit finish next) ⊆
      labelsOf (a.lines E exit finish next) ++ exit.toList ++ finish.toList := by
  cases a with
  | none => exact List.nil_subset _
  | last tag tags body => exact List.subset_append_of_subset_left _ (body.lines_targets exit next)
  | elsif tag cond tags body rest =>
    have hbody := body.lines_targets exit (next + 2)
    have hrest := rest.lines_targets exit finish (next + 2 + body.span)
    rw [Arms.lines, targetsOf_append, targetsOf_armLines, labelsOf_append, labelsOf_armLines]
    -- the arm, its body and the further arms add up, as sets
    intro l hl
    have hl₁ := @hbody l
    have hl₂ := @hrest l
    simp only [List.mem_cons, List.mem_append, List.not_mem_nil, or_false] at hl hl₁ hl₂ ⊢
    tauto

end

/-! ## The things at the top of a program

A `block` is what a statement or a function at the top is lowered to. It is closed under jumps and
takes the next stretch of numbers, so two blocks share no label. -/

/-- The lines of a thing at the top of a program, wherever they go. -/
def Item.block : Item → Nat → List Line
  | .stmt x, next => x.lines E none next
  | .function parts body, next => parts.lines E body next

/-- Parameters are no jumps. -/
theorem plain_params (params : List Name) : Plain (params.map fun p => .param p.text) := by
  intro i hi
  obtain ⟨p, -, rfl⟩ := List.mem_map.mp hi
  rfl

/-- A block has its labels from its own stretch of numbers, each of them once. -/
theorem Item.block_labels (i : Item) (next : Nat) :
    Within next (next + i.span) (labelsOf (i.block E next)) := by
  cases i with
  | stmt x => exact x.lines_labels E none next
  | function parts body =>
    rw [Item.block, FunctionParts.lines, labelsOf_append, labelsOf_instrs]
    exact body.lines_labels E none next

/-- A block jumps to its own labels: there is no loop around it. -/
theorem Item.block_targets (i : Item) (next : Nat) :
    targetsOf (i.block E next) ⊆ labelsOf (i.block E next) := by
  cases i with
  | stmt x =>
    have htargets := x.lines_targets E none next
    rw [Option.toList_none, List.append_nil] at htargets
    exact htargets
  | function parts body =>
    have htargets := body.lines_targets E none next
    rw [Option.toList_none, List.append_nil] at htargets
    rw [Item.block, FunctionParts.lines, targetsOf_append, targetsOf_instrs (plain_params _),
      labelsOf_append, labelsOf_instrs]
    exact htargets

variable {E}

/-- A label stands in the lines of one thing at most. -/
theorem Item.block_unique {l : Label} {pre pre' post post' : List Item} {i i' : Item} {next : Nat}
    (hitems : pre ++ i :: post = pre' ++ i' :: post')
    (hl : l ∈ labelsOf (i.block E (next + mainSpan pre)))
    (hl' : l ∈ labelsOf (i'.block E (next + mainSpan pre'))) : i = i' := by
  induction pre generalizing pre' next with
  | nil =>
    cases pre' with
    | nil => exact (List.cons.inj hitems).1
    | cons j pre' =>
      -- the second thing takes its labels behind those of the first
      have hbelow := ((i.block_labels E _).bounds l hl).2
      have habove := ((i'.block_labels E _).bounds l hl').1
      obtain ⟨rfl, -⟩ := List.cons.inj hitems
      simp only [mainSpan] at hbelow habove
      omega
  | cons j pre ih =>
    cases pre' with
    | nil =>
      have hbelow := ((i'.block_labels E _).bounds l hl').2
      have habove := ((i.block_labels E _).bounds l hl).1
      obtain ⟨rfl, -⟩ := List.cons.inj hitems
      simp only [mainSpan] at hbelow habove
      omega
    | cons j' pre' =>
      obtain ⟨rfl, hrest⟩ := List.cons.inj hitems
      rw [mainSpan, ← Nat.add_assoc] at hl hl'
      exact ih hrest hl hl'

end Shape

open Shape

/-- The main part jumps to its own labels. -/
theorem mainLines_targets (E : Emission) (items : List Item) (next : Nat) :
    targetsOf (mainLines E items next) ⊆ labelsOf (mainLines E items next) := by
  induction items generalizing next with
  | nil => exact List.nil_subset _
  | cons i items ih =>
    have hfirst : targetsOf (i.lines E next) ⊆ labelsOf (i.lines E next) := by
      cases i with
      | stmt x => exact (Item.stmt x).block_targets E next
      | function parts body => exact List.nil_subset _
    rw [mainLines, targetsOf_append, labelsOf_append]
    exact List.append_subset.mpr ⟨List.subset_append_of_subset_left _ hfirst,
      List.subset_append_of_subset_right _ (ih _)⟩

/-- A label of the main part stands in a statement. -/
theorem exists_stmt_of_mem_mainLines {E : Emission} {items : List Item} {next : Nat} {l : Label}
    (h : l ∈ labelsOf (mainLines E items next)) :
    ∃ pre x post, items = pre ++ .stmt x :: post ∧
      l ∈ labelsOf ((Item.stmt x).block E (next + mainSpan pre)) := by
  induction items generalizing next with
  | nil => cases h
  | cons i items ih =>
    rw [mainLines, labelsOf_append] at h
    obtain h | h := List.mem_append.mp h
    · cases i with
      | stmt x => exact ⟨[], x, items, rfl, h⟩
      | function parts body => cases h
    · obtain ⟨pre, x, post, rfl, hl⟩ := ih h
      refine ⟨i :: pre, x, post, rfl, ?_⟩
      rw [mainSpan, ← Nat.add_assoc]
      exact hl

/-! ## Subroutines

The subroutines of a program are its main part and the functions that are called, each of which is a
block. As blocks share no label, subroutines do not either. -/

/-- The lines of the subroutines of a program. -/
def Program.subs (p : Program) : List (List Line) :=
  p.main.toList :: p.functions.map (·.code.toList)

section Subroutines

variable {E : Emission} {items : List Item}

/-- The code of a record is the block of the last definition of its name. -/
theorem LastDefined.block {r : FunctionRecord Fragment} (h : LastDefined E items 0 r) :
    ∃ pre parts body post, items = pre ++ .function parts body :: post ∧ parts.name.text = r.name ∧
      r.code.toList = (Item.function parts body).block E (0 + mainSpan pre) := by
  obtain ⟨pre, parts, body, post, hitems, hname, -, hcode⟩ := h
  refine ⟨pre, parts, body, post, hitems, hname, ?_⟩
  rw [hcode]
  rfl

/-- No label stands twice, neither in one subroutine nor in two. -/
theorem nodup_labels_subs {p : Program} (hmain : p.main = (mainLines E items 0).toArray)
    (hnames : (p.functions.map (·.name)).Nodup)
    (hfunctions : ∀ r ∈ p.functions, LastDefined E items 0 r) :
    (p.subs.flatMap labelsOf).Nodup := by
  rw [Program.subs, List.flatMap_cons, hmain, List.nodup_append]
  refine ⟨(mainLines_labels E items 0).nodup, ?_, ?_⟩
  · rw [List.flatMap_map, List.nodup_flatMap]
    refine ⟨fun r hr => ?_, ?_⟩
    · obtain ⟨pre, parts, body, post, -, -, hcode⟩ := (hfunctions r hr).block
      rw [hcode]
      exact (Item.block_labels E _ _).nodup
    -- a label in two functions would make them one
    · rw [List.Nodup, List.pairwise_map] at hnames
      refine hnames.imp_of_mem fun {r r'} hr hr' hne l hl hl' => hne ?_
      obtain ⟨pre, parts, body, post, hitems, hname, hcode⟩ := (hfunctions r hr).block
      obtain ⟨pre', parts', body', post', hitems', hname', hcode'⟩ := (hfunctions r' hr').block
      dsimp only at hl hl'
      rw [hcode] at hl
      rw [hcode'] at hl'
      cases Item.block_unique (hitems.symm.trans hitems') hl hl'
      exact hname.symm.trans hname'
  · rintro l hl _ hl' rfl
    obtain ⟨sub, hsub, hl'⟩ := List.mem_flatMap.mp hl'
    obtain ⟨r, hr, rfl⟩ := List.mem_map.mp hsub
    obtain ⟨pre, x, post, hitems, hl⟩ := exists_stmt_of_mem_mainLines hl
    obtain ⟨pre', parts, body, post', hitems', -, hcode⟩ := (hfunctions r hr).block
    rw [hcode] at hl'
    cases Item.block_unique (hitems.symm.trans hitems') hl hl'

/-- A subroutine jumps to its own labels. -/
theorem targets_subs {p : Program} (hmain : p.main = (mainLines E items 0).toArray)
    (hfunctions : ∀ r ∈ p.functions, LastDefined E items 0 r) :
    ∀ sub ∈ p.subs, targetsOf sub ⊆ labelsOf sub := by
  intro sub hsub
  obtain rfl | hsub := List.mem_cons.mp hsub
  · rw [hmain]
    exact mainLines_targets E items 0
  · obtain ⟨r, hr, rfl⟩ := List.mem_map.mp hsub
    obtain ⟨pre, parts, body, post, -, -, hcode⟩ := (hfunctions r hr).block
    rw [hcode]
    exact Item.block_targets E _ _

end Subroutines

/-! ## The order of labels

The labels of a construct are taken when the walk enters it (`Opens`). As none is given back
(`Counts`), a construct that is entered later has larger ones. -/

/-- Whether a node takes labels when it is entered. -/
def Kind.isConstruct : Kind → Bool
  | .ifStmt | .unlessStmt | .elsifArm | .whileLoop | .forLoop => true
  | _ => false

/-- The labels that were taken for a frame. A further arm shares the last label of its branch. -/
def Frame.own (f : Frame Label) : List Label :=
  f.onTrue :: f.onFalse :: if f.kind = .elsifArm then [] else f.finish.toList

/-- Entering a node leads from one state to another, and stacks a frame for which the next labels are
taken. -/
structure Opens (n : Node) (s : Lowering) (f : Frame Label) (s' : Lowering) : Prop where
  run : (Lower.enter n).run s = .ok ((), s')
  frames : s'.labels.frames = f :: s.labels.frames
  own : f.own.map Label.number = List.range' s.labels.next f.own.length
  next : s'.labels.next = s.labels.next + f.own.length

/-- The labels of a frame are numbered from the next one on, and the next one is behind them. -/
theorem Opens.bounds {n : Node} {s s' : Lowering} {f : Frame Label} (h : Opens n s f s') {l : Label}
    (hl : l ∈ f.own) : s.labels.next ≤ l.number ∧ l.number < s'.labels.next := by
  have hmem : l.number ∈ f.own.map Label.number := List.mem_map_of_mem hl
  rw [h.own, List.mem_range'_1] at hmem
  rw [h.next]
  exact hmem

/-- To enter a branch takes two labels, or three if it has further arms. -/
theorem opens_branch {n : Node} (hkind : n.kind = .ifStmt ∨ n.kind = .unlessStmt) {s s' : Lowering}
    (h : (Lower.enter n).run s = .ok ((), s')) : ∃ f, Opens n s f s' := by
  have hrun : (Lower.enterBranch n).run s = .ok ((), s') := by
    obtain hkind | hkind := hkind <;> rwa [Lower.enter, hkind] at h
  have helsif : n.kind ≠ .elsifArm := by
    obtain hkind | hkind := hkind <;> rw [hkind] <;> decide
  -- a branch with further arms takes a label behind all of them
  by_cases hmore : n.children.length > 2
  · simp only [Lower.enterBranch, if_pos hmore] at hrun
    cases hrun
    refine ⟨⟨n.kind, ⟨s.labels.next⟩, ⟨s.labels.next + 1⟩, some ⟨s.labels.next + 2⟩⟩, h, rfl, ?_, ?_⟩
    · simp [Frame.own, helsif, List.range']
    · simp [Frame.own, helsif, Labels.push]
  · simp only [Lower.enterBranch, if_neg hmore] at hrun
    cases hrun
    refine ⟨⟨n.kind, ⟨s.labels.next⟩, ⟨s.labels.next + 1⟩, none⟩, h, rfl, ?_, ?_⟩
    · simp [Frame.own, List.range']
    · simp [Frame.own, Labels.push]

/-- To enter a loop takes two labels. -/
theorem opens_loop {n : Node} (hkind : n.kind = .whileLoop ∨ n.kind = .forLoop) {s s' : Lowering}
    (h : (Lower.enter n).run s = .ok ((), s')) : ∃ f, Opens n s f s' := by
  have hrun : (Lower.enterLoop n).run s = .ok ((), s') := by
    obtain hkind | hkind := hkind <;> rwa [Lower.enter, hkind] at h
  cases hrun
  refine ⟨⟨n.kind, ⟨s.labels.next⟩, ⟨s.labels.next + 1⟩, none⟩, h, rfl, ?_, ?_⟩
  · simp [Frame.own, List.range']
  · simp [Frame.own, Labels.push, Labels.pushLoop]

/-- To enter a further arm takes two labels; the one behind all arms is that of its branch. -/
theorem opens_elsif {n : Node} (hkind : n.kind = .elsifArm) {s s' : Lowering}
    (h : (Lower.enter n).run s = .ok ((), s')) : ∃ f, Opens n s f s' := by
  have hrun : Lower.enterElsif.run s = .ok ((), s') := by rwa [Lower.enter, hkind] at h
  rw [Lower.enterElsif] at hrun
  -- the frame of the branch is on top, or the walk stops here
  cases hframes : s.labels.frames with
  | nil =>
    have htop : s.labels.top = .error .noFrame := by rw [Labels.top, hframes]
    rw [Lower.topFrame, bind_assoc, Lower.run_bind_of_ok (Lower.run_get s), htop] at hrun
    cases hrun
  | cons f frames =>
    rw [Lower.run_bind_of_ok (Lower.run_topFrame hframes)] at hrun
    cases hfinish : f.finish with
    | none => rw [hfinish] at hrun; cases hrun
    | some finish =>
      rw [hfinish] at hrun
      cases hrun
      exact ⟨⟨.elsifArm, ⟨s.labels.next⟩, ⟨s.labels.next + 1⟩, some finish⟩, h, rfl, rfl, rfl⟩

/-- A branch, a further arm and a loop take labels when they are entered. -/
theorem opens_of_run {n : Node} (hkind : n.kind.isConstruct = true) {s s' : Lowering}
    (h : (Lower.enter n).run s = .ok ((), s')) : ∃ f, Opens n s f s' := by
  cases hk : n.kind with
  | ifStmt => exact opens_branch (.inl hk) h
  | unlessStmt => exact opens_branch (.inr hk) h
  | elsifArm => exact opens_elsif hk h
  | whileLoop => exact opens_loop (.inl hk) h
  | forLoop => exact opens_loop (.inr hk) h
  | _ => rw [hk] at hkind; cases hkind

/-- Labels are never given back. -/
def Counts (s s' : Lowering) : Prop := s.labels.next ≤ s'.labels.next

instance : Looser Counts where
  refl _ := Nat.le_refl _
  trans h h' := Nat.le_trans h h'
  buffers _ _ := Nat.le_refl _
  fragments _ _ := Nat.le_refl _
  values _ _ := Nat.le_refl _
  labels _ _ h := h
  registers _ := Nat.le_refl _
  scopes _ _ := Nat.le_refl _
  errors _ _ _ := Nat.le_refl _
  notices _ _ := Nat.le_refl _
  requires _ _ := Nat.le_refl _
  stmtCall _ _ := Nat.le_refl _
  program _ _ := Nat.le_refl _
  calls _ _ := Nat.le_refl _

instance : Lower.Keeps Counts Lower.resetRegisters := ⟨fun h => by cases h; exact Nat.le_refl _⟩

set_option synthInstance.maxSize 512 in
/-- The number of labels taken only grows, also where a function replaces another. -/
instance (event : Event) : Lower.Keeps Counts (Lower.step event) := by
  have (r : FunctionRecord Fragment) : Lower.Keeps Counts (Lower.storeFunction r) :=
    ⟨fun h => by cases h; exact Nat.le_refl _⟩
  cases event with
  | enter n => exact Lower.keeps_enter fun _ => inferInstance
  | exit n => exact Lower.keeps_exit fun _ => inferInstance
  | missing => exact inferInstanceAs (Lower.Keeps Counts (throw _ : Lower Unit))

/-- Of two constructs that some events enter, the later one takes the larger labels. -/
def Ascending (events : List Event) (s : Lowering) : Prop :=
  ∀ before n between m after, events = before ++ .enter n :: (between ++ .enter m :: after) →
    n.kind.isConstruct = true → m.kind.isConstruct = true →
    ∃ t f t' u g u', (before.forM Lower.step).run s = .ok ((), t) ∧ Opens n t f t' ∧
      (between.forM Lower.step).run t' = .ok ((), u) ∧ Opens m u g u' ∧
      ∀ l ∈ f.own, ∀ k ∈ g.own, l.number < k.number

/-- In a walk that succeeds, constructs that are entered later take larger labels. -/
theorem ascending_of_run {events : List Event} {s s' : Lowering}
    (h : (events.forM Lower.step).run s = .ok ((), s')) : Ascending events s := by
  rintro before n between m after rfl hn hm
  obtain ⟨t, hbefore, hrest⟩ := run_forM_append h
  rw [Lower.forM_step_cons] at hrest
  obtain ⟨_, t', henter, hrest⟩ := Lower.run_bind_eq_ok hrest
  obtain ⟨f, hf⟩ := opens_of_run hn henter
  obtain ⟨u, hbetween, hrest⟩ := run_forM_append hrest
  rw [Lower.forM_step_cons] at hrest
  obtain ⟨_, u', henter', -⟩ := Lower.run_bind_eq_ok hrest
  obtain ⟨g, hg⟩ := opens_of_run hm henter'
  refine ⟨t, f, t', u, g, u', hbefore, hf, hbetween, hg, fun l hl k hk => ?_⟩
  -- between the two entries no label is given back
  have hcounts : t'.labels.next ≤ u.labels.next := Lower.Keeps.rel (R := Counts) hbetween
  have hbelow := (hf.bounds hl).2
  have habove := (hg.bounds hk).1
  omega

/-- In the program of a parsed source, no label is defined twice; every jump goes to a label that its
own subroutine defines once; and in the order of the walk, constructs take larger and larger labels. -/
theorem labels_of_parse {src : Source} {root : Node} (hparse : parse src = .ok root)
    (label stdlib : String) :
    ∃ final program, lower root label stdlib = .ok final ∧ final.program = some program ∧
      ((program.subs.flatMap labelsOf).map Label.name).Nodup ∧
      (∀ sub ∈ program.subs, ∀ l ∈ targetsOf sub,
        ((labelsOf sub).map Label.name).count l.name = 1) ∧
      Ascending root.walk.events (.started label stdlib) := by
  obtain ⟨script, E, s, rfl, hvalid, hnodup, hE, hlowers⟩ := exists_lowers hparse label stdlib
  obtain ⟨program, hprogram, hmain⟩ := hlowers.main
  obtain ⟨hnames, hfunctions⟩ := hlowers.emitted program hprogram
  have hlabels := nodup_labels_subs hmain hnames hfunctions
  refine ⟨_, program, lower_eq_of_walk hnodup hlowers.visits.run, hprogram,
    hlabels.map Label.name_injective, fun sub hsub l hl => ?_, ?_⟩
  · rw [List.count_map_of_injective _ _ Label.name_injective]
    have hsubNodup := (List.nodup_flatMap.mp hlabels).1 sub hsub
    exact List.count_eq_one_of_mem hsubNodup (targets_subs hmain hfunctions sub hsub hl)
  · rw [walk_eq_tour hnodup hlowers.visits.run]
    have hrun := hlowers.visits.run
    rw [← Lower.forM_tour] at hrun
    exact ascending_of_run hrun

/-- A function that is defined twice, before and behind its call. -/
def redefined : Source := .ofString "def f()
while x
break
end
end
if f()
x = 1
elsif x
y = 1
end
def f()
unless x
end
end
"

/-- Applied to the program above: the record that is emitted is that of the second definition. -/
theorem labels_redefined :
    ∃ root, parse redefined = .ok root ∧
      ∃ final program, lower root "redefined" defaultStdlib = .ok final ∧
        final.program = some program ∧
        ((program.subs.flatMap labelsOf).map Label.name).Nodup ∧
        (∀ sub ∈ program.subs, ∀ l ∈ targetsOf sub,
          ((labelsOf sub).map Label.name).count l.name = 1) ∧
        Ascending root.walk.events (.started "redefined" defaultStdlib) := by
  have hok : (parse redefined).isOk = true := by decide +kernel
  cases hparse : parse redefined with
  | error e => rw [hparse] at hok; cases hok
  | ok root => exact ⟨root, rfl, labels_of_parse hparse "redefined" defaultStdlib⟩

end ScriptPir

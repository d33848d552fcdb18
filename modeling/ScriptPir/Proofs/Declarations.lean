import ScriptPir.Proofs.Registers

/-!
# Where variables are declared

A variable is declared by its first assignment in the order of the walk. The lines of a subroutine are in
that order, with one exception: the step of a loop with a header is walked before the body and placed
behind it. If the step is the first to assign to a variable and the body assigns to it as well, the
assignment in the body stands above the declaration.

* `DeclaredFirst v lines` — every assignment to a variable has the declaration somewhere above it;
* `Stmt.misplaces v` — the first assignment to a variable is in a loop's step, and the body has another;
* `declared_first_iff` — in a program without semantic errors, the variables that are not declared first
  are exactly those.
-/

namespace ScriptPir

open Shape

/-! ## Mentions of a variable

Whether a variable is declared first is decided by its first mention. So lines need not be compared
with each other: `firstMention` is computed for a concatenation from its parts, and for a permutation
of two parts by `mentionOf_or_swapped`. -/

/-- The variable that an instruction declares. -/
def Instr.declared? : Instr → Option String
  | .declare x => some x
  | _ => none

/-- The variable that an instruction assigns to. -/
def Instr.assigned? : Instr → Option String
  | .construct (.name x) _ | .assign x .. | .assignPower x _ | .loadGlobal x _ => some x
  | _ => none

/-- Above every assignment to a variable there is its declaration. -/
def DeclaredFirst (v : String) (lines : List Line) : Prop :=
  ∀ before i after, lines = before ++ .instr i :: after → i.assigned? = some v →
    .instr (.declare v) ∈ before

/-- How an instruction mentions a variable. -/
inductive Mention where
  | declaration
  | assignment
deriving DecidableEq

/-- How a line mentions a variable, if it does. -/
def Line.mention? (v : String) : Line → Option Mention
  | .instr i =>
    if i.declared? = some v then some .declaration
    else if i.assigned? = some v then some .assignment
    else none
  | .label _ => none

/-- The first mention of a variable among some lines. -/
def firstMention (v : String) (lines : List Line) : Option Mention := lines.findSome? (Line.mention? v)

section Mentions

variable {v : String}

/-- An instruction that assigns to a variable declares none. -/
theorem Instr.declared?_of_assigned {i : Instr} {x : String} (h : i.assigned? = some x) :
    i.declared? = none := by
  cases i with
  | declare => cases h
  | _ => rfl

/-- An instruction mentions the variable that it assigns to. -/
theorem mention?_of_assigned {i : Instr} {x : String} (h : i.assigned? = some x) :
    (Line.instr i).mention? v = if x = v then some .assignment else none := by
  rw [Line.mention?, Instr.declared?_of_assigned h, h]
  simp

/-- A declaration is mentioned by the instruction that declares the variable. -/
theorem eq_declare_of_mention? {line : Line} (h : line.mention? v = some .declaration) :
    line = .instr (.declare v) := by
  cases line with
  | label => cases h
  | instr i =>
    rw [Line.mention?] at h
    split at h
    · rename_i hdeclared
      cases i with
      | declare x => cases hdeclared; rfl
      | _ => cases hdeclared
    · split at h <;> cases h

/-- An assignment is mentioned by an instruction that assigns to the variable. -/
theorem exists_assigned_of_mention? {line : Line} (h : line.mention? v = some .assignment) :
    ∃ i, line = .instr i ∧ i.assigned? = some v := by
  cases line with
  | label => cases h
  | instr i =>
    rw [Line.mention?] at h
    split at h
    · cases h
    · split at h
      · exact ⟨i, rfl, ‹_›⟩
      · cases h

/-- The first mention in two parts is that of the first part, if there is one. -/
@[simp] theorem firstMention_append (xs ys : List Line) :
    firstMention v (xs ++ ys) = (firstMention v xs).or (firstMention v ys) := List.findSome?_append

@[simp] theorem firstMention_nil : firstMention v [] = none := rfl

/-- The first mention decides whether a variable is declared first. -/
theorem declaredFirst_iff_firstMention {lines : List Line} :
    DeclaredFirst v lines ↔ firstMention v lines ≠ some .assignment := by
  constructor
  · intro h hfirst
    obtain ⟨before, line, after, hlines, hline, hbefore⟩ := List.findSome?_eq_some_iff.mp hfirst
    obtain ⟨i, rfl, hi⟩ := exists_assigned_of_mention? hline
    have hnone := hbefore _ (h before i after hlines hi)
    simp [Line.mention?, Instr.declared?] at hnone
  · rintro h before i after rfl hi
    rw [firstMention_append] at h
    -- the line of the assignment is not the first mention, so there is one above it, and that is a
    -- declaration
    cases hbefore : firstMention v before with
    | none =>
      rw [hbefore] at h
      simp [firstMention, mention?_of_assigned hi] at h
    | some m =>
      obtain ⟨line, hmem, hline⟩ := List.exists_of_findSome?_eq_some hbefore
      cases m with
      | assignment =>
        rw [hbefore] at h
        exact absurd rfl h
      | declaration =>
        rw [← eq_declare_of_mention? hline]
        exact hmem

/-- Code that declares nothing and assigns to nothing mentions no variable. -/
theorem firstMention_instrs {code : List Instr}
    (h : ∀ i ∈ code, i.declared? = none ∧ i.assigned? = none) :
    firstMention v (instrs code) = none := by
  refine List.findSome?_eq_none_iff.mpr fun line hline => ?_
  obtain ⟨i, hi, rfl⟩ := List.mem_map.mp hline
  simp [Line.mention?, h i hi]

/-- Code that only writes registers neither declares nor assigns a variable. -/
theorem Shape.Confined.silent {α : Type} {s : Supply} {x : Lowered α} (h : Confined s x) :
    ∀ i ∈ x.code, i.declared? = none ∧ i.assigned? = none := by
  intro i hi
  obtain ⟨r, hr, -⟩ := h.writes i hi
  cases i with
  | construct place cls =>
    cases place with
    | reg => exact ⟨rfl, rfl⟩
    | name | elementAt | elementBy => cases hr
  | getGlobal | neg | not | arith | power | test | call => exact ⟨rfl, rfl⟩
  | declare | param | assign | assignPower | store | setGlobal | loadGlobal | jump | branch | ret
  | raw => cases hr

theorem firstMention_confined {α : Type} {s : Supply} {x : Lowered α} (h : Confined s x) :
    firstMention v (instrs x.code) = none := firstMention_instrs h.silent

end Mentions

/-! ## Legs

A leg is what a walk emits at one point. Its first mention of a variable depends on two things:
whether it assigns to the variable, and whether the variable is known already, since a declaration is
emitted only for new ones. -/

/-- The first mention of a variable in code that assigns to it or does not, where it is declared before
or is not. -/
def mentionOf (assigned declared : Bool) : Option Mention :=
  if assigned then some (if declared then .assignment else .declaration) else none

namespace Shape

/-- The variable that an assignment gives a value to. -/
def Assignment.target? : Assignment → Option String
  | .assign _ name .. | .arrayInit _ name _ | .globalGet _ name .. => some name.text
  | .store .. => none

/-- Whether a leg assigns to a variable. -/
def Leg.assigns (v : String) : Leg → Bool
  | .simple (.assignment a) => a.target? = some v
  | .simple _ | .value _ => false

/-- Whether some legs assign to a variable. -/
def assignsAny (v : String) (legs : List Leg) : Bool := legs.any (·.assigns v)

@[simp] theorem assignsAny_append (v : String) (xs ys : List Leg) :
    assignsAny v (xs ++ ys) = (assignsAny v xs || assignsAny v ys) := List.any_append

@[simp] theorem assignsAny_cons (v : String) (x : Leg) (xs : List Leg) :
    assignsAny v (x :: xs) = (x.assigns v || assignsAny v xs) := rfl

@[simp] theorem assignsAny_nil (v : String) : assignsAny v [] = false := rfl

variable {v : String} {σ : Spot}

/-- A declaration adds its variable to those that are known. -/
theorem contains_declare (σ : Spot) (x v : String) :
    (σ.declare x).names.contains v = (σ.names.contains v || decide (x = v)) := by
  unfold Spot.declare
  split
  · rename_i hx
    by_cases hv : x = v
    · rw [← hv, hx]
      rfl
    · simp [hv]
  · show (σ.names.push x).contains v = _
    by_cases hv : x = v <;> simp [hv, eq_comm]

/-- The last instruction assigns to a variable, behind code that mentions none. -/
theorem firstMention_last (code : List Instr) {i : Instr} {x : String} (hi : i.assigned? = some x)
    (hcode : firstMention v (instrs code) = none) :
    firstMention v (instrs (code ++ [i])) = mentionOf (x = v) true := by
  rw [instrs_append, firstMention_append, hcode, Option.none_or]
  by_cases hv : x = v <;> simp [firstMention, mention?_of_assigned hi, mentionOf, hv]

/-- A declaration in front of an assignment, if the variable is new. -/
theorem firstMention_declaration {x : String} {construct code : List Instr}
    (hconstruct : x ≠ v → firstMention v (instrs construct) = none)
    (hcode : firstMention v (instrs code) = mentionOf (x = v) true) :
    firstMention v (instrs (σ.declaration x construct ++ code)) =
      mentionOf (x = v) (σ.names.contains v) := by
  rw [instrs_append, firstMention_append, hcode]
  unfold Spot.declaration
  -- the variable itself is declared if it is new; for any other one, what is emitted mentions nothing
  by_cases hv : x = v
  · subst hv
    cases hknown : σ.names.contains x with
    | true => simp [mentionOf]
    | false => simp [firstMention, Line.mention?, Instr.declared?, mentionOf]
  · have hnone : firstMention v (instrs (.declare x :: construct)) = none := by
      have hother := hconstruct hv
      have hdeclare : (Line.instr (.declare x)).mention? v = none := by
        simp [Line.mention?, Instr.declared?, Instr.assigned?, hv]
      rw [instrs_cons, firstMention, List.findSome?_cons_of_isNone (by simp [hdeclare])]
      exact hother
    rw [show mentionOf (decide (x = v)) true = none by simp [mentionOf, hv], Option.or_none]
    split
    · simp [mentionOf, hv]
    · rw [hnone]
      simp [mentionOf, hv]

/-- An instruction without a variable of its own, behind code that mentions none. -/
theorem firstMention_silent {code : List Instr} {i : Instr}
    (hi : i.declared? = none ∧ i.assigned? = none) (hcode : firstMention v (instrs code) = none) :
    firstMention v (instrs (code ++ [i])) = none := by
  have hlast : firstMention v (instrs [i]) = none := firstMention_instrs (by simpa using hi)
  rw [instrs_append, firstMention_append, hcode, hlast]
  rfl

/-- An assignment declares its variable first if that is new, and then assigns to it. -/
theorem first_assignment (a : Assignment) (h : a.Defined σ) :
    firstMention v (instrs (a.code σ)) = mentionOf (a.target? = some v) (σ.names.contains v) := by
  cases a with
  | assign id name op value =>
    have hvalue : firstMention v (instrs (value.assigned σ).code) = none :=
      firstMention_confined (confined_lowered value _)
    have hlast : firstMention v (instrs ((value.assigned σ).code ++
        [if op.text = "**=" then .assignPower name.text (value.assigned σ).result
          else .assign name.text op.text (value.assigned σ).result])) =
        mentionOf (name.text = v) true := firstMention_last _ (by split <;> rfl) hvalue
    have htarget : ((Assignment.assign id name op value).target? = some v) = (name.text = v) := by
      simp [Assignment.target?]
    simp only [Assignment.code, List.append_assoc, htarget]
    split
    · refine firstMention_declaration (fun hne => ?_) hlast
      simp [firstMention, mention?_of_assigned (i := .construct (.name name.text) _) rfl, hne]
    -- the variable of any other assignment is declared already
    · rename_i hop
      rw [List.nil_append, hlast]
      by_cases hv : name.text = v
      · rw [← hv, h.resolve_left hop]
      · simp [mentionOf, hv]
  | arrayInit id name op =>
    have htarget : ((Assignment.arrayInit id name op).target? = some v) = (name.text = v) := by
      simp [Assignment.target?]
    simp only [htarget]
    exact firstMention_declaration (fun _ => rfl) (firstMention_last [] rfl rfl)
  | store id target index op value =>
    have hplace : firstMention v (instrs ((Expr.element target index).assigned σ).code) = none :=
      firstMention_confined (confined_lowered _ _)
    have hvalue : firstMention v (instrs (value.lowered
        ((Expr.element target index).assigned σ).supply).code) = none :=
      firstMention_confined (confined_lowered value _)
    refine firstMention_silent ⟨rfl, rfl⟩ ?_
    rw [instrs_append, firstMention_append, hplace, hvalue]
    rfl
  | globalGet id name op global =>
    have htarget : ((Assignment.globalGet id name op global).target? = some v) = (name.text = v) := by
      simp [Assignment.target?]
    simp only [htarget]
    refine firstMention_declaration (fun hne => ?_) (firstMention_last [] rfl rfl)
    simp [firstMention, mention?_of_assigned (i := .construct (.name name.text) _) rfl, hne]

/-- A leg that assigns to a variable declares it first if it is new; other legs mention no variable. -/
theorem first_leg {E : Emission} {x : Leg} (hemitted : x.Emitted E σ) (hdefined : x.Defined σ) :
    firstMention v (instrs (E.code x.id)) = mentionOf (x.assigns v) (σ.names.contains v) := by
  cases x with
  | value e =>
    -- code of an expression assigns to registers only
    show firstMention v (instrs (E.code e.id)) = none
    rw [hemitted.at.1]
    exact firstMention_confined (confined_lowered e _)
  | simple x =>
    show firstMention v (instrs (E.code x.node.id)) = _
    rw [hemitted.1]
    cases x with
    | assignment a => exact first_assignment a hdefined
    | globalSet id global op value =>
      exact firstMention_silent ⟨rfl, rfl⟩ (firstMention_confined (confined_lowered value _))
    | require => rfl
    | target id code =>
      -- lines of target code are not looked into
      refine firstMention_instrs fun i hi => ?_
      obtain ⟨text, -, rfl⟩ := List.mem_map.mp hi
      exact ⟨rfl, rfl⟩
    | call id parts args =>
      exact firstMention_silent ⟨rfl, rfl⟩ (firstMention_confined (confined_loweredArgs args _))

/-- Behind an assignment its variable is known. -/
theorem contains_assignment (a : Assignment) (h : a.Defined σ) :
    (a.after σ).names.contains v = (σ.names.contains v || decide (a.target? = some v)) := by
  cases a with
  | store => exact (Bool.or_false _).symm
  | arrayInit id name op =>
    rw [Assignment.after, contains_declare]
    simp [Assignment.target?]
  | globalGet id name op global =>
    rw [Assignment.after, contains_declare]
    simp [Assignment.target?]
  | assign id name op value =>
    rw [Assignment.after]
    split
    · rw [contains_declare]
      simp [Spot.spend, Assignment.target?]
    -- any other assignment declares nothing, but finds its variable declared
    · rename_i hop
      have hknown : σ.names.contains name.text = true := h.resolve_left hop
      by_cases hv : name.text = v
      · rw [hv] at hknown
        simp_all [Spot.spend]
      · simp [Spot.spend, Assignment.target?, hv]

/-- What was assigned to is declared. -/
theorem contains_after {x : Leg} (h : x.Defined σ) :
    (x.after σ).names.contains v = (σ.names.contains v || x.assigns v) := by
  cases x with
  | value e => exact (Bool.or_false _).symm
  | simple x =>
    cases x with
    | globalSet | require | target | call => exact (Bool.or_false _).symm
    | assignment a => exact contains_assignment a h

/-- An emission has what a leg is lowered to, and the leg changes declared variables only. -/
def Leg.Faultless (E : Emission) (x : Leg) (σ : Spot) : Prop := x.Emitted E σ ∧ x.Defined σ

/-- Behind some legs those variables are known that were known before, or that a leg assigns to. -/
theorem contains_afterAll {E : Emission} {legs : List Leg} (h : Along (Leg.Faultless E) legs σ) :
    (afterAll legs σ).names.contains v = (σ.names.contains v || assignsAny v legs) := by
  induction legs generalizing σ with
  | nil => exact (Bool.or_false _).symm
  | cons x legs ih =>
    show (afterAll legs (x.after σ)).names.contains v = _
    rw [ih h.2, contains_after h.1.2, assignsAny_cons, Bool.or_assoc]

end Shape

/-! ## Statements

The layout of statements keeps the order of the legs, except for the header of a loop: there the step
comes before the body in the walk and behind it in the lines. -/

namespace Shape

mutual

/-- Whether the first assignment to a variable in a statement is in the step of a loop's header whose
body assigns to the variable too. -/
def Stmt.misplaces (v : String) : Stmt → Bool
  | .simple _ | .ret .. | .brk _ => false
  | .branch _ _ _ _ body arms =>
    if assignsAny v body.legs then body.misplaces v else arms.misplaces v
  | .whileLoop _ _ _ body => body.misplaces v
  | .forLoop _ init _ step _ body =>
    if assignsAny v init.legs then false
    else if assignsAny v step.legs then assignsAny v body.legs
    else body.misplaces v

/-- Whether the first assignment in some statements is such a one. -/
def Stmts.misplaces (v : String) : Stmts → Bool
  | .nil => false
  | .cons first rest => if assignsAny v first.legs then first.misplaces v else rest.misplaces v

/-- Whether the first assignment in the further arms of a branch is such a one. -/
def Arms.misplaces (v : String) : Arms → Bool
  | .none => false
  | .last _ _ body => body.misplaces v
  | .elsif _ _ _ body rest =>
    if assignsAny v body.legs then body.misplaces v else rest.misplaces v

end

section Layouts

variable {E : Emission} {v : String} {σ : Spot}

/-- The first mention in two pieces of code that are laid out in the order of the walk. -/
theorem mentionOf_or (a b known m n : Bool) :
    (mentionOf a (known || m)).or (mentionOf b (known || a || n)) =
      mentionOf (a || b) (known || if a then m else n) := by
  cases a <;> simp [mentionOf]

/-- The first mention in two pieces of code of which the second is walked before the first. -/
theorem mentionOf_or_swapped (a b known m : Bool) :
    (mentionOf b (known || a || m)).or (mentionOf a known) =
      mentionOf (a || b) (known || if a then b else m) := by
  cases a <;> cases b <;> simp [mentionOf]

theorem first_cond {cond : Cond} (h : (Leg.value cond.expr).Emitted E σ) :
    firstMention v (instrs (E.code cond.expr.id)) = none := by
  rw [h.at.1]
  exact firstMention_confined (confined_lowered cond.expr _)

/-- An arm mentions what its body does. -/
theorem first_armLines {cond : Cond} (h : (Leg.value cond.expr).Emitted E σ) (negated : Bool)
    (onTrue onFalse : Label) (finish : Option Label) (body : List Line) :
    firstMention v (armLines E negated cond onTrue onFalse finish body) = firstMention v body := by
  have hbranch : firstMention v [.instr (.branch negated (E.value cond.expr.id) onTrue),
      .instr (.jump onFalse), .label onTrue] = none := rfl
  have hend : firstMention v (finish.toList.map (.instr <| .jump ·) ++ [.label onFalse]) = none := by
    cases finish <;> rfl
  rw [show armLines E negated cond onTrue onFalse finish body = instrs (E.code cond.expr.id) ++
    ([.instr (.branch negated (E.value cond.expr.id) onTrue), .instr (.jump onFalse),
      .label onTrue] ++ (body ++ _)) from rfl]
  rw [firstMention_append, first_cond h, firstMention_append, hbranch, firstMention_append, hend]
  simp

/-- A loop mentions what its body does, and then what its step does. -/
theorem first_loopLines {cond : Cond} (h : (Leg.value cond.expr).Emitted E σ) (top out : Label)
    (body step : List Line) :
    firstMention v (loopLines E cond top out body step) =
      (firstMention v body).or (firstMention v step) := by
  have hbranch : firstMention v [.instr (.branch true (E.value cond.expr.id) out)] = none := rfl
  have hend : firstMention v [.instr (.jump top), .label out] = none := rfl
  rw [show loopLines E cond top out body step = [.label top] ++ (instrs (E.code cond.expr.id) ++
    ([.instr (.branch true (E.value cond.expr.id) out)] ++ (body ++ (step ++ _)))) from rfl]
  rw [firstMention_append, firstMention_append, first_cond h, firstMention_append, hbranch,
    firstMention_append, firstMention_append, hend]
  simp [firstMention, Line.mention?]

/-- A clause of a header is made of its legs in order. -/
theorem first_clause {c : Clause} (h : Along (Leg.Faultless E) c.legs σ) :
    firstMention v (instrs (c.code E)) = mentionOf (assignsAny v c.legs) (σ.names.contains v) := by
  have hcode : c.code E = c.legs.flatMap fun x => E.code x.id := by
    rw [Clause.code, Clause.legs, List.flatMap_map]
    rfl
  rw [hcode]
  generalize c.legs = legs at h
  induction legs generalizing σ with
  | nil => rfl
  | cons x legs ih =>
    rw [List.flatMap_cons, instrs_append, firstMention_append, first_leg h.1.1 h.1.2, ih h.2,
      contains_after h.1.2, assignsAny_cons]
    have hor := mentionOf_or (x.assigns v) (assignsAny v legs) (σ.names.contains v) false false
    simpa only [Bool.or_false, ite_self] using hor

mutual

/-- The first mention of a variable in a statement is its declaration, unless it is declared before or
misplaced. -/
theorem first_stmt (x : Stmt) {σ : Spot} (h : Along (Leg.Faultless E) x.legs σ)
    (exit : Option Label) (next : Nat) : firstMention v (x.lines E exit next) =
      mentionOf (assignsAny v x.legs) (σ.names.contains v || x.misplaces v) := by
  cases x with
  | simple x =>
    rw [Stmt.misplaces, Bool.or_false, Stmt.legs, assignsAny_cons, assignsAny_nil, Bool.or_false]
    exact first_leg h.1.1 h.1.2
  | ret tag value =>
    cases value with
    | none => rfl
    | some e =>
      have hvalue : firstMention v (instrs (E.code e.id)) = none := first_leg h.1.1 h.1.2
      rw [Stmt.lines, firstMention_append, hvalue]
      rfl
  | brk tag => cases exit <;> rfl
  | branch tag negated cond tags body arms =>
    obtain ⟨hcond, hrest⟩ := h
    obtain ⟨hbody, harms⟩ := along_append.mp hrest
    have hfirst := first_stmts body hbody exit (next + arms.own)
    have hothers := first_arms arms harms exit (arms.finish next) (next + arms.own + body.span)
    have hlabels : firstMention v ((arms.finish next).toList.map .label) = none := by
      cases arms.finish next <;> rfl
    rw [contains_afterAll hbody] at hothers
    rw [Stmt.lines, firstMention_append, first_armLines hcond.1, firstMention_append, hlabels,
      Option.or_none, hfirst, hothers, Stmt.legs, assignsAny_cons, assignsAny_append, Stmt.misplaces]
    exact mentionOf_or ..
  | whileLoop tag cond tags body =>
    have hbody := first_stmts body h.2 (some ⟨next + 1⟩) (next + 2)
    rw [Stmt.lines, first_loopLines h.1.1, hbody, firstMention_nil, Option.or_none]
    rfl
  | forLoop tag init cond step tags body =>
    obtain ⟨hinit, hcond, hrest⟩ := along_append.mp h
    obtain ⟨hstep, hbody⟩ := along_append.mp hrest
    have hfirst : firstMention v (instrs (init.code E)) = _ := first_clause hinit
    have hheader : firstMention v (instrs (step.code E)) = _ := first_clause hstep
    have hloop := first_stmts body hbody (some ⟨next + 1⟩) (next + 2)
    rw [contains_afterAll hstep] at hloop
    have hknown : ((Leg.value cond.expr).after (afterAll init.legs σ)).names.contains v = _ :=
      contains_afterAll hinit
    rw [hknown] at hheader hloop
    -- the body stands above the step, but is walked behind it
    rw [Stmt.lines, firstMention_append, first_loopLines hcond.1, hfirst, hloop, hheader,
      mentionOf_or_swapped, Stmt.legs, assignsAny_append, assignsAny_cons, assignsAny_append,
      Stmt.misplaces]
    have hor := mentionOf_or (assignsAny v init.legs)
      (assignsAny v step.legs || assignsAny v body.legs) (σ.names.contains v) false
      (if assignsAny v step.legs then assignsAny v body.legs else body.misplaces v)
    rw [Bool.or_false] at hor
    exact hor

/-- In statements, the first mention of a variable is its declaration, unless they misplace it. -/
theorem first_stmts (b : Stmts) {σ : Spot} (h : Along (Leg.Faultless E) b.legs σ)
    (exit : Option Label) (next : Nat) : firstMention v (b.lines E exit next) =
      mentionOf (assignsAny v b.legs) (σ.names.contains v || b.misplaces v) := by
  cases b with
  | nil => rfl
  | cons first rest =>
    obtain ⟨hfirst, hrest⟩ := along_append.mp h
    have hone := first_stmt first hfirst exit next
    have hothers := first_stmts rest hrest exit (next + first.span)
    rw [contains_afterAll hfirst] at hothers
    rw [Stmts.lines, firstMention_append, hone, hothers, Stmts.legs, assignsAny_append,
      Stmts.misplaces]
    exact mentionOf_or ..

/-- In the further arms of a branch, the first mention of a variable is its declaration, unless they
misplace it. -/
theorem first_arms (a : Arms) {σ : Spot} (h : Along (Leg.Faultless E) a.legs σ)
    (exit finish : Option Label) (next : Nat) : firstMention v (a.lines E exit finish next) =
      mentionOf (assignsAny v a.legs) (σ.names.contains v || a.misplaces v) := by
  cases a with
  | none => rfl
  | last tag tags body => exact first_stmts body h exit next
  | elsif tag cond tags body rest =>
    obtain ⟨hcond, hrest⟩ := h
    obtain ⟨hbody, harms⟩ := along_append.mp hrest
    have hfirst := first_stmts body hbody exit (next + 2)
    have hothers := first_arms rest harms exit finish (next + 2 + body.span)
    rw [contains_afterAll hbody] at hothers
    rw [Arms.lines, firstMention_append, first_armLines hcond.1, hfirst, hothers, Arms.legs,
      assignsAny_cons, assignsAny_append, Arms.misplaces]
    exact mentionOf_or ..

end

end Layouts

section Assigned

variable {v : String}

mutual

/-- A statement that misplaces a variable assigns to it. -/
theorem Stmt.assigns_of_misplaces (x : Stmt) (h : x.misplaces v = true) :
    assignsAny v x.legs = true := by
  cases x with
  | simple | ret | brk => cases h
  | branch tag negated cond tags body arms =>
    rw [Stmt.legs, assignsAny_cons, assignsAny_append]
    rw [Stmt.misplaces] at h
    split at h
    · simp [*]
    · simp [arms.assigns_of_misplaces h]
  | whileLoop tag cond tags body => exact body.assigns_of_misplaces h
  | forLoop tag init cond step tags body =>
    -- a header assigns in its start, in its step, or in the body
    rw [Stmt.legs, assignsAny_append, assignsAny_cons, assignsAny_append]
    rw [Stmt.misplaces] at h
    split at h
    · cases h
    · split at h
      · simp [*]
      · simp [body.assigns_of_misplaces h]

/-- Statements that misplace a variable assign to it. -/
theorem Stmts.assigns_of_misplaces (b : Stmts) (h : b.misplaces v = true) :
    assignsAny v b.legs = true := by
  cases b with
  | nil => cases h
  | cons first rest =>
    rw [Stmts.legs, assignsAny_append]
    rw [Stmts.misplaces] at h
    split at h
    · simp [*]
    · simp [rest.assigns_of_misplaces h]

/-- Arms of a branch that misplace a variable assign to it. -/
theorem Arms.assigns_of_misplaces (a : Arms) (h : a.misplaces v = true) :
    assignsAny v a.legs = true := by
  cases a with
  | none => cases h
  | last tag tags body => exact body.assigns_of_misplaces h
  | elsif tag cond tags body rest =>
    rw [Arms.legs, assignsAny_cons, assignsAny_append]
    rw [Arms.misplaces] at h
    split at h
    · simp [*]
    · simp [rest.assigns_of_misplaces h]

end

/-- A variable that is not declared before some statements is declared first in their lines, unless they
misplace it. -/
theorem declaredFirst_iff_misplaces {lines : List Line} {b : Stmts}
    (h : firstMention v lines = mentionOf (assignsAny v b.legs) (b.misplaces v)) :
    DeclaredFirst v lines ↔ b.misplaces v = false := by
  rw [declaredFirst_iff_firstMention, h, ← Bool.not_eq_true]
  refine not_congr ⟨fun hfirst => ?_, fun hmisplaces => ?_⟩
  · unfold mentionOf at hfirst
    split at hfirst
    · split at hfirst
      · assumption
      · cases hfirst
    · cases hfirst
  · rw [b.assigns_of_misplaces hmisplaces, hmisplaces]
    rfl

end Assigned

/-- What holds along some legs one by one holds together. -/
theorem Along.and {P Q : Leg → Spot → Prop} {legs : List Leg} {σ : Spot} (hp : Along P legs σ)
    (hq : Along Q legs σ) : Along (fun x σ => P x σ ∧ Q x σ) legs σ := by
  induction legs generalizing σ with
  | nil => trivial
  | cons x legs ih => exact ⟨⟨hp.1, hq.1⟩, ih hp.2 hq.2⟩

end Shape

/-! ## Programs

The main part starts without known variables, and a function with its parameters. A function
definition between the statements of the main part has its own lines and is left out of those of the
main part. -/

/-- The statements of the main part of a program. -/
def mainBody : List Item → Stmts
  | [] => .nil
  | .stmt x :: items => .cons x (mainBody items)
  | .function .. :: items => mainBody items

section Programs

variable {E : Emission} {v : String} {items : List Item}

/-- What holds along the items of a program one by one holds together. -/
theorem AlongItems.and {P Q : Leg → Spot → Prop} {σ : Spot} (hp : AlongItems P items σ)
    (hq : AlongItems Q items σ) : AlongItems (fun x σ => P x σ ∧ Q x σ) items σ := by
  induction items generalizing σ with
  | nil => trivial
  | cons i items ih =>
    refine ⟨?_, ih hp.2 hq.2⟩
    cases i with
    | stmt x => exact Along.and hp.1 hq.1
    | function parts body => exact Along.and hp.1 hq.1

/-- The main part is what its statements are. -/
theorem first_mainLines {σ : Spot} (h : AlongItems (Leg.Faultless E) items σ) (next : Nat) :
    firstMention v (mainLines E items next) =
      mentionOf (assignsAny v (mainBody items).legs)
        (σ.names.contains v || (mainBody items).misplaces v) := by
  induction items generalizing σ next with
  | nil => rfl
  | cons i items ih =>
    have hrest := ih h.2 (next + i.span)
    rw [mainLines, firstMention_append]
    cases i with
    -- a function adds nothing here and declares nothing
    | function parts body => exact hrest
    | stmt x =>
      have hfirst := first_stmt (v := v) x h.1 none next
      have hknown : ((Item.stmt x).after σ).names.contains v = _ := contains_afterAll h.1
      rw [hknown] at hrest
      rw [hrest, mainBody, Stmts.legs, assignsAny_append, Stmts.misplaces]
      exact (congrArg (Option.or · _) hfirst).trans (mentionOf_or ..)

theorem contains_start (v : String) : Spot.start.names.contains v = false := by
  simp [Spot.start]

/-- At the entry of a function its parameters are known. -/
theorem contains_entry_eq (parts : FunctionParts) (v : String) :
    parts.entry.names.contains v = parts.params.any (·.text = v) := by
  have hparams : ∀ (params : List Shape.Name) (σ : Spot),
      (params.foldl (fun σ p => σ.declare p.text) σ).names.contains v =
        (σ.names.contains v || params.any (·.text = v)) := by
    intro params
    induction params with
    | nil => exact fun σ => (Bool.or_false _).symm
    | cons p params ih =>
      intro σ
      rw [List.foldl_cons, ih, contains_declare, Bool.or_assoc]
      rfl
  rw [FunctionParts.entry, hparams, contains_start, Bool.false_or]

/-- A variable that is no parameter is not known at the entry. -/
theorem contains_entry {parts : FunctionParts} (h : ∀ p ∈ parts.params, p.text ≠ v) :
    parts.entry.names.contains v = false := by
  rw [contains_entry_eq]
  simpa using h

/-- A function declares its parameters and fetches them, and then has the lines of its body. -/
theorem first_function {parts : FunctionParts} {body : Stmts}
    (h : Along (Leg.Faultless E) body.legs parts.entry) (hv : ∀ p ∈ parts.params, p.text ≠ v)
    (next : Nat) : firstMention v (parts.lines E body next) =
      mentionOf (assignsAny v body.legs) (body.misplaces v) := by
  have hparams : firstMention v (instrs (parts.params.map fun p => .param p.text)) = none := by
    refine firstMention_instrs fun i hi => ?_
    obtain ⟨p, -, rfl⟩ := List.mem_map.mp hi
    exact ⟨rfl, rfl⟩
  rw [FunctionParts.lines, firstMention_append, hparams, first_stmts body h, contains_entry hv]
  rfl

end Programs

/-- In a program without semantic errors, a variable of the main part is declared above all assignments
to it if and only if the statements do not misplace it, and so is a variable of a function that is not a
parameter. -/
theorem declared_first_iff {src : Source} {root : Node} {final : Lowering} {label stdlib : String}
    (hparse : parse src = .ok root) (hlower : lower root label stdlib = .ok final)
    (hclean : final.errors = #[]) :
    ∃ (script : Script) (program : Program), root = script.node ∧ final.program = some program ∧
      (∀ v, DeclaredFirst v program.main.toList ↔ (mainBody script.items).misplaces v = false) ∧
      ∀ r ∈ program.functions, ∃ pre parts body post,
        script.items = pre ++ .function parts body :: post ∧ parts.name.text = r.name ∧
        (∀ parts' body', .function parts' body' ∈ post → parts'.name.text ≠ r.name) ∧
        ∀ v, (∀ p ∈ parts.params, p.text ≠ v) →
          (DeclaredFirst v r.code.toList ↔ body.misplaces v = false) := by
  obtain ⟨script, E, s, rfl, hvalid, hnodup, hE, hlowers⟩ := exists_lowers hparse label stdlib
  obtain ⟨program, hprogram, hmain⟩ := hlowers.main
  obtain ⟨-, hfunctions⟩ := hlowers.emitted program hprogram
  rw [lower_eq_of_walk hnodup hlowers.visits.run] at hlower
  cases hlower
  -- without errors, every leg changes variables only that are declared when it is walked
  have hlegs : AlongItems (Leg.Faultless E) script.items .start :=
    hlowers.legs.and (hlowers.defined hclean)
  refine ⟨script, program, rfl, hprogram, fun v => ?_, fun r hr => ?_⟩
  · have hfirst := first_mainLines (v := v) hlegs 0
    rw [contains_start, Bool.false_or] at hfirst
    rw [hmain]
    exact declaredFirst_iff_misplaces hfirst
  · obtain ⟨pre, parts, body, post, hitems, hname, hpost, hcode⟩ := hfunctions r hr
    refine ⟨pre, parts, body, post, hitems, hname, hpost, fun v hv => ?_⟩
    obtain ⟨σ, hbody⟩ := exists_along_of_mem (i := .function parts body) hlegs (by simp [hitems])
    rw [hcode]
    exact declaredFirst_iff_misplaces (first_function hbody hv _)

/-- A function whose loop declares a variable in its step, and a main part with a loop that does not. -/
def stepping : Source := .ofString "def f(n)
  for(i = 0; i < n; last = i)
    last = n
  end
  return last
end
for(i = 0; f(i); i += 1)
  i = i * 2
  unless i
    k = []
  end
end
"

/-- A program without errors in which one variable is misplaced and the others are not. -/
theorem declared_first_stepping :
    ∃ root final, parse stepping = .ok root ∧ lower root "stepping" defaultStdlib = .ok final ∧
      final.errors = #[] ∧
      ∃ (script : Script) (program : Program), root = script.node ∧ final.program = some program ∧
        (∀ v, DeclaredFirst v program.main.toList ↔ (mainBody script.items).misplaces v = false) ∧
        ∀ r ∈ program.functions, ∃ pre parts body post,
          script.items = pre ++ .function parts body :: post ∧ parts.name.text = r.name ∧
          (∀ parts' body', .function parts' body' ∈ post → parts'.name.text ≠ r.name) ∧
          ∀ v, (∀ p ∈ parts.params, p.text ≠ v) →
            (DeclaredFirst v r.code.toList ↔ body.misplaces v = false) := by
  have hclean : ((parse stepping).toOption.any fun root =>
      (lower root "stepping" defaultStdlib).toOption.any (·.errors.isEmpty)) = true := by
    decide +kernel
  obtain ⟨root, final, hparse, hlower, hempty⟩ := exists_of_any hclean
  have herrors : final.errors = #[] := Array.isEmpty_iff.mp hempty
  exact ⟨root, final, hparse, hlower, herrors, declared_first_iff hparse hlower herrors⟩

/-- A loop whose step and body assign to a variable, and nothing else does. -/
def late : Source := .ofString "for(; 1; x = 1)
x = 2
end
"

/-- The assignment in the body stands above the declaration that was made for the step. -/
theorem not_declared_first_late :
    ∃ root final program, parse late = .ok root ∧ lower root "late" defaultStdlib = .ok final ∧
      final.errors = #[] ∧ final.program = some program ∧
      ¬DeclaredFirst "x" program.main.toList := by
  have hfirst : ((parse late).toOption.any fun root =>
      (lower root "late" defaultStdlib).toOption.any fun final => final.errors.isEmpty &&
        final.program.any fun program =>
          decide (firstMention "x" program.main.toList = some .assignment)) = true := by
    decide +kernel
  obtain ⟨root, final, hparse, hlower, hfinal⟩ := exists_of_any hfirst
  obtain ⟨hempty, hprogram⟩ := Bool.and_eq_true_iff.mp hfinal
  obtain ⟨program, hsome, hmention⟩ := (Option.any_eq_true _ _).mp hprogram
  refine ⟨root, final, program, hparse, hlower, Array.isEmpty_iff.mp hempty, hsome, fun h => ?_⟩
  exact declaredFirst_iff_firstMention.mp h (of_decide_eq_true hmention)

end ScriptPir

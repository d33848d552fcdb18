import ScriptPir.Proofs.Paths
import ScriptPir.Proofs.Walk

/-!
# What the steps of a walk keep

`Lower.Keeps R p` says that whenever the step `p` succeeds, the states before and after it are related
by `R`. It is shown for every primitive step, for all relations that do not look at what the step
changes. It is a class, so that it is found for the steps that are put together from these: such a step
asks for the primitive steps in it that a relation may well look at.

What is asked of a relation comes in levels, as classes: some relations look at nothing but buffers,
others at the tables too. `Keeps` is found by instances for everything that the relation does not look
at, so a proof about one table has to treat the steps that touch this table and no others.

* `keeps_enter` and `keeps_exit` — entries and exits, from what is asked of each kind of node;
* `keeps_walk` — whole walks, from their entries and exits.
-/

namespace ScriptPir

/-- A relation between states that does not look at fragments, and that allows labels to be taken. -/
class Rough (R : Lowering → Lowering → Prop) : Prop where
  refl (s : Lowering) : R s s
  trans {s t u : Lowering} : R s t → R t u → R s u
  buffers (s : Lowering) (buffers : Buffers Line) : R s { s with buffers }
  fragments (s : Lowering) (fragments : Std.TreeMap Int Fragment compare) : R s { s with fragments }
  labels (s : Lowering) (labels : Labels Label) (h : s.labels.next ≤ labels.next) :
    R s { s with labels }

/-- A rough relation that does not look at values either. -/
class Lax (R : Lowering → Lowering → Prop) : Prop extends Rough R where
  values (s : Lowering) (values : Std.TreeMap Int Value compare) : R s { s with values }

/-- A rough relation that does not look at notices either, and that allows registers to be taken. -/
class Firm (R : Lowering → Lowering → Prop) : Prop extends Rough R where
  registers (s : Lowering) : R s { s with registers := s.registers.fresh.2 }
  bools (s : Lowering) (scope : Scope) (below : List Scope) (h : s.scopes.stack = scope :: below) :
    R s { s with scopes := ⟨scope.freshBool.2 :: below⟩ }
  notices (s : Lowering) (notices : Array Notice) : R s { s with notices }

/-- A firm relation that does not look at the call whose result is not used. -/
class Loose (R : Lowering → Lowering → Prop) : Prop extends Firm R where
  stmtCall (s : Lowering) (stmtCall : Int) : R s { s with stmtCall }

/-- A firm relation that does not look at scopes and the program either, and that allows errors to be
reported. -/
class Wide (R : Lowering → Lowering → Prop) : Prop extends Firm R where
  scopes (s : Lowering) (scopes : Scopes) : R s { s with scopes }
  bools := fun s _ _ _ => scopes s _
  errors (s : Lowering) (line : Int) (message : String) :
    R s { s with errors := s.errors.add line message }
  program (s : Lowering) (program : Option Program) : R s { s with program }

/-- A relation that is both loose and wide. -/
class Unscoped (R : Lowering → Lowering → Prop) : Prop extends Loose R, Wide R

/-- A lax and unscoped relation that does not look at libraries, and that allows calls to be noted. -/
class Looser (R : Lowering → Lowering → Prop) : Prop extends Lax R, Unscoped R where
  requires (s : Lowering) (requires : Array String) : R s { s with requires }
  calls (s : Lowering) (name : String) : R s { s with functions := s.functions.call name }

/-- Whether entering a node starts again from the first object register. -/
def Kind.resets : Kind → Bool
  | .funcDef | .assign | .indexAssign | .globalSet | .callStmt => true
  | _ => false

/-- The productions that have a scope of their own. -/
def Kind.opensScope : Kind → Bool
  | .program | .funcDef => true
  | _ => false

/-- The productions whose value may be a constant. -/
def Kind.isConstant : Kind → Bool
  | .literal | .paren | .arg | .cond | .unary | .binary => true
  | _ => false

/-- The productions that only arrange what stands below them. -/
def Kind.isControl : Kind → Bool
  | .terminal | .stmtList | .body | .cond | .returnStmt | .breakStmt | .ifStmt | .unlessStmt
  | .elsifArm | .elseArm | .whileLoop | .forLoop | .forInit | .forStep => true
  | _ => false

/-- The productions whose exit changes neither scopes, errors nor what is known of the program as a
whole. -/
def Kind.isQuiet : Kind → Bool
  | .program | .funcDef | .params | .assign | .arrayInit | .globalGet | .require | .call | .unary
  | .binary => false
  | _ => true

-- the instance for a step of ten parts is found in some hundred attempts
set_option synthInstance.maxSize 512

namespace Lower

variable {α β : Type} {R : Lowering → Lowering → Prop}

/-- Whenever a step succeeds, the states before and after it are related. -/
class Keeps (R : Lowering → Lowering → Prop) (p : Lower α) : Prop where
  rel : ∀ {s a s'}, p.run s = .ok (a, s') → R s s'

/-- A step that reads the state, and then does what a part of it allows. -/
theorem run_get_check {x : Lowering → Except Violation α} {f : Lowering → α → Lower β} {b : β}
    {s s' : Lowering}
    (h : (do
      let s ← get
      let a ← check (x s)
      f s a : Lower β).run s = .ok (b, s')) : ∃ a, x s = .ok a ∧ (f s a).run s = .ok (b, s') := by
  have hrun : (check (x s) >>= f s).run s = .ok (b, s') := h
  cases hx : x s with
  | ok a =>
    rw [hx] at hrun
    exact ⟨a, rfl, hrun⟩
  | error v =>
    rw [hx] at hrun
    cases hrun

instance (v : Violation) : Keeps R (throw v : Lower α) := ⟨fun h => by cases h⟩

instance {c : Prop} [Decidable c] {p q : Lower α} [Keeps R p] [Keeps R q] :
    Keeps R (if c then p else q) := by
  split <;> infer_instance

section Rough

variable [Rough R]

instance (a : α) : Keeps R (pure a : Lower α) := ⟨fun h => by cases h; exact Rough.refl _⟩

instance {p : Lower α} {f : α → Lower β} [Keeps R p] [∀ a, Keeps R (f a)] : Keeps R (p >>= f) := by
  refine ⟨fun h => ?_⟩
  obtain ⟨a, s', hp, hf⟩ := run_bind_eq_ok h
  exact Rough.trans (Keeps.rel hp) (Keeps.rel hf)

instance {p : Lower α} {f : α → β} [Keeps R p] : Keeps R (f <$> p) := by
  rw [map_eq_pure_bind]
  infer_instance

instance {f : α → Lower Unit} (as : List α) [∀ a, Keeps R (f a)] : Keeps R (as.forM f) := by
  induction as with
  | nil => exact inferInstanceAs (Keeps R (pure () : Lower Unit))
  | cons a as ih => exact inferInstanceAs (Keeps R (f a >>= fun _ => as.forM f))

instance {f : α → Lower β} (as : List α) [∀ a, Keeps R (f a)] : Keeps R (as.mapM f) := by
  induction as with
  | nil => exact inferInstanceAs (Keeps R (pure [] : Lower (List β)))
  | cons a as ih =>
    rw [List.mapM_cons]
    infer_instance

instance (x : Except Violation α) : Keeps R (check x) := by
  cases x with
  | ok a => exact inferInstanceAs (Keeps R (pure a : Lower α))
  | error v => exact inferInstanceAs (Keeps R (throw v : Lower α))

instance : Keeps R (get : Lower Lowering) := ⟨fun h => by cases h; exact Rough.refl _⟩

instance (n : Node) (i : Nat) : Keeps R (child n i) := by
  unfold child
  split <;> infer_instance

instance (n : Node) : Keeps R (operator n) := by
  unfold operator
  split <;> infer_instance

instance (n : Node) : Keeps R (valueOf n) := by
  have (s : Lowering) : Keeps R (match s.values[n.id]? with
      | some v => pure v
      | none => throw (.noDescriptor n.id) : Lower Value) := by
    split <;> infer_instance
  exact inferInstanceAs (Keeps R (get >>= _))

instance : Keeps R pushBuffer := ⟨fun h => by cases h; exact Rough.buffers _ _⟩

instance : Keeps R popBuffer := by
  refine ⟨fun h => ?_⟩
  obtain ⟨r, -, h⟩ := run_get_check h
  cases h
  exact Rough.buffers _ _

instance (l : Line) : Keeps R (write l) := by
  refine ⟨fun h => ?_⟩
  obtain ⟨r, -, h⟩ := run_get_check h
  cases h
  exact Rough.buffers _ _

instance (fragment : Fragment) : Keeps R (splice fragment) := by
  refine ⟨fun h => ?_⟩
  obtain ⟨r, -, h⟩ := run_get_check h
  cases h
  exact Rough.buffers _ _

instance (n : Node) (fragment : Fragment) : Keeps R (keep n fragment) :=
  ⟨fun h => by cases h; exact Rough.fragments _ _⟩

instance (n : Node) : Keeps R (take n) := by
  refine ⟨fun h => ?_⟩
  obtain ⟨_, _, hget, h⟩ := run_bind_eq_ok h
  cases hget
  split at h
  · cases h
    exact Rough.fragments _ _
  · cases h

instance : Keeps R freshLabel := ⟨fun h => by cases h; exact Rough.labels _ _ (Nat.le_succ _)⟩

instance (f : Frame Label) : Keeps R (pushFrame f) :=
  ⟨fun h => by cases h; exact Rough.labels _ _ (Nat.le_refl _)⟩

instance (exit : Label) : Keeps R (pushLoop exit) :=
  ⟨fun h => by cases h; exact Rough.labels _ _ (Nat.le_refl _)⟩

instance : Keeps R popFrame := by
  refine ⟨fun h => ?_⟩
  obtain ⟨r, hpop, h⟩ := run_get_check h
  cases h
  refine Rough.labels _ _ ?_
  unfold Labels.pop at hpop
  split at hpop <;> cases hpop
  exact Nat.le_refl _

instance : Keeps R popLoop := by
  refine ⟨fun h => ?_⟩
  obtain ⟨r, hpop, h⟩ := run_get_check h
  cases h
  refine Rough.labels _ _ ?_
  unfold Labels.popLoop at hpop
  split at hpop <;> cases hpop
  exact Nat.le_refl _

instance (i : Instr) : Keeps R (emit i) := inferInstanceAs (Keeps R (write _))

instance (l : Label) : Keeps R (emitLabel l) := inferInstanceAs (Keeps R (write _))

instance (n : Node) : Keeps R (stash n) := inferInstanceAs (Keeps R (popBuffer >>= _))

instance : Keeps R topFrame := inferInstanceAs (Keeps R (get >>= _))

instance : Keeps R loopExit := inferInstanceAs (Keeps R (get >>= _))

/-! ## Branches and loops

These steps move fragments, take labels and write lines, which a rough relation allows; so they need
no assumption beyond it. -/

instance (negated : Bool) (f : Frame Label) (condition body : Node) :
    Keeps R (arm negated f condition body) := by
  unfold arm
  cases f.finish <;> dsimp only <;> infer_instance

instance (f : Frame Label) (condition body : Node) (step : Fragment) :
    Keeps R (loop f condition body step) := by
  unfold loop
  infer_instance

instance (n : Node) : Keeps R (enterBranch n) := by
  unfold enterBranch
  infer_instance

instance (n : Node) : Keeps R (enterLoop n) := by
  unfold enterLoop
  infer_instance

instance : Keeps R enterElsif := by
  have (f : Frame Label) : Keeps R (match f.finish with
      | none => throw .elsifWithoutEnd
      | some finish => do
        let onTrue ← freshLabel
        let onFalse ← freshLabel
        pushFrame { kind := .elsifArm, onTrue, onFalse, finish := some finish }
        pushBuffer : Lower Unit) := by
    split <;> infer_instance
  exact inferInstanceAs (Keeps R (topFrame >>= _))

instance (n : Node) : Keeps R (exitBranch n) := by
  have (f : Frame Label) : Keeps R (do
      arm (n.kind = .unlessStmt) f (← child n 0) (← child n 1)
      (n.children.drop 2).forM fun c => do splice (← take c)
      if let some finish := f.finish then emitLabel finish : Lower Unit) := by
    cases f.finish <;> infer_instance
  exact inferInstanceAs (Keeps R (popFrame >>= _))

instance (n : Node) : Keeps R (exitElsif n) := by
  unfold exitElsif
  infer_instance

instance (n : Node) : Keeps R (exitElse n) := by
  unfold exitElse
  infer_instance

instance (n : Node) : Keeps R (exitWhile n) := by
  unfold exitWhile
  infer_instance

instance (n : Node) : Keeps R (exitFor n) := by
  unfold exitFor
  infer_instance

instance : Keeps R exitBreak := by
  unfold exitBreak
  infer_instance

instance (n : Node) [∀ v, Keeps R (setValue n v)] : Keeps R (exitCond n) := by
  unfold exitCond
  infer_instance

instance (n : Node) : Keeps R (exitReturn n) := by
  unfold exitReturn
  infer_instance

/-- To enter a node that only arranges others keeps every rough relation. -/
theorem keeps_enter_control {n : Node} (h : n.kind.isControl = true) : Keeps R (enter n) := by
  unfold enter
  split
  all_goals
    rename_i hkind
    rw [hkind] at h
    first
    | infer_instance
    | cases h

/-- To leave such a node keeps it too, if the value of a condition may be recorded. -/
theorem keeps_exit_control {n : Node} [∀ v, Keeps R (setValue n v)] (h : n.kind.isControl = true) :
    Keeps R (exit n) := by
  unfold exit
  split
  all_goals
    rename_i hkind
    rw [hkind] at h
    first
    | infer_instance
    | cases h

end Rough

instance [Lax R] (n : Node) (v : Value) : Keeps R (setValue n v) :=
  ⟨fun h => by cases h; exact Lax.values _ _⟩

section Firm

variable [Firm R]

instance (n : Notice) : Keeps R (note n) := ⟨fun h => by cases h; exact Firm.notices _ _⟩

instance : Keeps R topScope := inferInstanceAs (Keeps R (get >>= _))

instance : Keeps R freshBool := by
  refine ⟨@fun s r s' h => ?_⟩
  obtain ⟨scope, s₁, htop, hrest⟩ := run_bind_eq_ok h
  obtain ⟨s₂, s₃, hget, hcheck⟩ := run_bind_eq_ok htop
  cases hget
  -- there is a scope, or its register could not be taken
  cases hstack : s.scopes.stack with
  | nil =>
    have hnone : s.scopes.top = .error .noScope := by rw [Scopes.top, hstack]
    rw [hnone] at hcheck
    cases hcheck
  | cons top below =>
    have hsome : s.scopes.top = .ok top := by rw [Scopes.top, hstack]
    rw [hsome] at hcheck
    cases hcheck
    cases hrest
    show R s { s with scopes := s.scopes.setTop scope.freshBool.2 }
    rw [Scopes.setTop, hstack]
    exact Firm.bools s scope below hstack

instance : Keeps R freshRegister := ⟨fun h => by cases h; exact Firm.registers _⟩

/-! ## Expressions

An expression takes registers and records a value, which not every relation allows. The value is
asked for as an instance: a relation that ignores values gives it for all of them, others for one
node only. -/

section Computed

variable {n : Node} [∀ place, Keeps R (setValue n (.dynamic place))]

instance : Keeps R (exitGlobalRef n) := by
  unfold exitGlobalRef
  infer_instance

instance : Keeps R temporary := by
  unfold temporary
  infer_instance

instance (v : Value) : Keeps R (exitNegation.atRunTime n v) := by
  unfold exitNegation.atRunTime
  infer_instance

instance (op : String) (l r : Value) : Keeps R (exitBinary.atRunTime n op l r) := by
  unfold exitBinary.atRunTime
  infer_instance

instance : Keeps R (exitBoolean n) := by
  have (op : Node) : Keeps R (match BoolOp.ofText? op.text with
      | none => throw (.unknownBoolean op.text)
      | some test => do
        let l ← valueOf (← child n 0)
        let r ← valueOf (← child n 2)
        let reg ← freshBool
        emit (.test reg test l r)
        setValue n (.dynamic (.reg reg)) : Lower Unit) := by
    split <;> infer_instance
  exact inferInstanceAs (Keeps R (operator n >>= _))

instance : Keeps R (exitIndex n) := by
  have (array : String) (v : Value) : Keeps R (match v with
      | .int i => setValue n (.dynamic (.elementAt array i))
      | .dynamic place => setValue n (.dynamic (.elementBy array place))
      | v => throw (.badIndex array v.kind) : Lower Unit) := by
    split <;> infer_instance
  exact inferInstanceAs (Keeps R (child n 0 >>= _))

instance (args : Node) : Keeps R (arguments args) := by
  unfold arguments
  infer_instance

/-- The callee of a call is noted. -/
abbrev noteCall (callee : String) : Lower Unit :=
  modify fun s => { s with functions := s.functions.call callee }

instance [∀ callee, Keeps R (noteCall callee)] : Keeps R (exitCall n) := by
  unfold exitCall
  infer_instance

end Computed

section Valued

variable {n : Node} [∀ v, Keeps R (setValue n v)]

instance : Keeps R (exitLiteral n) := by
  have (leaf : Node) : Keeps R (match literal leaf.token with
      | .ok v => setValue n v
      | .error e => throw (.badLiteral e) : Lower Unit) := by
    split <;> infer_instance
  exact inferInstanceAs (Keeps R (child n 0 >>= _))

instance (v : Value) [∀ line fault, Keeps R (report line fault)] : Keeps R (exitNegation n v) := by
  unfold exitNegation
  cases foldNeg v <;> infer_instance

instance [∀ line fault, Keeps R (report line fault)] : Keeps R (exitUnary n) := by
  have (text : String) (v : Value) : Keeps R (match text with
      | "-" => exitNegation n v
      | "!" | "not" => do
        let r ← freshBool
        emit (.not r v)
        setValue n (.dynamic (.reg r))
      | text => throw (.unknownUnary text) : Lower Unit) := by
    split <;> infer_instance
  exact inferInstanceAs (Keeps R (operator n >>= _))

instance [∀ line fault, Keeps R (report line fault)] : Keeps R (exitBinary n) := by
  have (op : Node) (l r : Value) : Keeps R (if l.isStatic && r.isStatic then
      match fold op.text l r with
      | .ok folded => setValue n folded
      | .error e => do
        report op.line (.folding e)
        exitBinary.atRunTime n op.text l r
    else exitBinary.atRunTime n op.text l r : Lower Unit) := by
    cases fold op.text l r <;> infer_instance
  exact inferInstanceAs (Keeps R (operator n >>= _))

end Valued

/-! ## Simple statements -/

instance (n : Node) : Keeps R (exitIndexAssign n) := by
  unfold exitIndexAssign
  infer_instance

instance (n : Node) : Keeps R (exitGlobalSet n) := by
  unfold exitGlobalSet
  infer_instance

instance (n : Node) : Keeps R (exitInlinePir n) := by
  unfold exitInlinePir
  infer_instance

/-- The name of a library is noted, if it is new. -/
abbrev noteLibrary (name : String) : Lower Unit :=
  modify fun s => if s.requires.contains name then s else { s with requires := s.requires.push name }

instance (n : Node) [∀ name, Keeps R (noteLibrary name)] : Keeps R (exitRequire n) := by
  have (leaf : Node) : Keeps R (match literal leaf.token with
      | .error e => throw (.badLiteral e)
      | .ok v =>
        let name := if v.text.endsWith ".pir" then v.text else v.text ++ ".pir"
        noteLibrary name : Lower Unit) := by
    split <;> infer_instance
  exact inferInstanceAs (Keeps R (child n 0 >>= _))

section Declaring

variable [∀ name, Keeps R (declareName name)]

instance (name : String) (cls : Class) : Keeps R (declare name cls) := by
  unfold declare
  infer_instance

instance (n : Node) [∀ line fault, Keeps R (report line fault)] : Keeps R (exitAssign n) := by
  unfold exitAssign
  infer_instance

instance (n : Node) : Keeps R (exitArrayInit n) := by
  unfold exitArrayInit
  infer_instance

instance (n : Node) : Keeps R (exitGlobalGet n) := by
  unfold exitGlobalGet
  infer_instance

instance (n : Node) : Keeps R (exitParams n) := by
  unfold exitParams
  infer_instance

end Declaring

/-! ## Subroutines -/

section Scoping

variable [Keeps R popScope]

/-- The assembled program is stored. -/
abbrev storeProgram (program : Program) : Lower Unit :=
  modify fun s => { s with program := some program }

instance [∀ program, Keeps R (storeProgram program)] : Keeps R exitProgram := by
  unfold exitProgram
  dsimp only
  infer_instance

/-- A function is stored under its name. -/
abbrev storeFunction (r : FunctionRecord Fragment) : Lower Unit :=
  modify fun s => { s with functions := s.functions.define r }

instance (n : Node) [∀ r, Keeps R (storeFunction r)] : Keeps R (exitFuncDef n) := by
  unfold exitFuncDef
  dsimp only
  infer_instance

end Scoping

/-! ## Nodes -/

/-- The call whose result is not used is noted. -/
abbrev setStmtCall (id : Int) : Lower Unit := modify fun s => { s with stmtCall := id }

/-- What an entry keeps, from the three steps that a relation may well look at. -/
theorem keeps_enter_firm {n : Node} (hscope : n.kind.opensScope = true → Keeps R pushScope)
    (hresets : n.kind.resets = true → Keeps R resetRegisters)
    (hstmt : n.kind = .callStmt → ∀ id, Keeps R (setStmtCall id)) : Keeps R (enter n) := by
  unfold enter
  split
  -- the instances below need what this kind does, which is one of the hypotheses or none of them
  all_goals
    rename_i hkind
    rw [hkind] at hscope hresets
    first
    | infer_instance
    | have := hscope rfl
      infer_instance
    | have := hresets rfl
      infer_instance
    | have := hscope rfl
      have := hresets rfl
      infer_instance
    | have := hresets rfl
      have := hstmt hkind
      infer_instance

/-- What an exit keeps that remembers no constant, from the steps that may be part of it. -/
theorem keeps_exit_computed_firm {n : Node} [∀ place, Keeps R (setValue n (.dynamic place))]
    [∀ line fault, Keeps R (report line fault)] [∀ name, Keeps R (declareName name)]
    [Keeps R popScope] [∀ program, Keeps R (storeProgram program)]
    (hkind : n.kind.isConstant = false)
    (hdefine : n.kind = .funcDef → Keeps R (exitFuncDef n))
    (hcall : n.kind = .call → ∀ callee, Keeps R (noteCall callee))
    (hrequire : n.kind = .require → ∀ name, Keeps R (noteLibrary name))
    (hstmt : n.kind = .callStmt → ∀ id, Keeps R (setStmtCall id)) : Keeps R (exit n) := by
  unfold exit
  split
  all_goals
    rename_i hown
    rw [hown] at hkind
    first
    | infer_instance
    | exact hdefine hown
    | have := hcall hown
      infer_instance
    | have := hrequire hown
      infer_instance
    | exact hstmt hown _
    | cases hkind

/-- What an exit keeps, from the steps that may be part of it. -/
theorem keeps_exit_firm {n : Node} [∀ v, Keeps R (setValue n v)]
    [∀ line fault, Keeps R (report line fault)] [∀ name, Keeps R (declareName name)]
    [Keeps R popScope] [∀ program, Keeps R (storeProgram program)]
    (hdefine : n.kind = .funcDef → Keeps R (exitFuncDef n))
    (hcall : n.kind = .call → ∀ callee, Keeps R (noteCall callee))
    (hrequire : n.kind = .require → ∀ name, Keeps R (noteLibrary name))
    (hstmt : n.kind = .callStmt → ∀ id, Keeps R (setStmtCall id)) : Keeps R (exit n) := by
  cases hkind : n.kind.isConstant with
  | false => exact keeps_exit_computed_firm hkind hdefine hcall hrequire hstmt
  | true =>
    unfold exit
    split
    all_goals
      rename_i hown
      rw [hown] at hkind
      first
      | infer_instance
      | cases hkind

end Firm

section Loose

variable [Loose R]

instance (id : Int) : Keeps R (setStmtCall id) := ⟨fun h => by cases h; exact Loose.stmtCall _ _⟩

/-- What an entry keeps, from the two steps that a relation may well look at. -/
theorem keeps_enter_of {n : Node} (hscope : n.kind.opensScope = true → Keeps R pushScope)
    (hresets : n.kind.resets = true → Keeps R resetRegisters) : Keeps R (enter n) :=
  keeps_enter_firm hscope hresets fun _ _ => inferInstance

/-- Only a function and a statement with a value start again from the first register. -/
theorem keeps_enter {n : Node} [Keeps R pushScope]
    (h : n.kind.resets = true → Keeps R resetRegisters) : Keeps R (enter n) :=
  keeps_enter_of (fun _ => inferInstance) h

/-- What an exit keeps that remembers no constant, in a relation that does not look at the used call. -/
theorem keeps_exit_computed {n : Node} [∀ place, Keeps R (setValue n (.dynamic place))]
    [∀ line fault, Keeps R (report line fault)] [∀ name, Keeps R (declareName name)]
    [Keeps R popScope] [∀ program, Keeps R (storeProgram program)]
    (hkind : n.kind.isConstant = false)
    (hdefine : n.kind = .funcDef → Keeps R (exitFuncDef n))
    (hcall : n.kind = .call → ∀ callee, Keeps R (noteCall callee))
    (hrequire : n.kind = .require → ∀ name, Keeps R (noteLibrary name)) : Keeps R (exit n) :=
  keeps_exit_computed_firm hkind hdefine hcall hrequire fun _ _ => inferInstance

/-- What an exit keeps, in a relation that does not look at the used call. -/
theorem keeps_exit_of {n : Node} [∀ v, Keeps R (setValue n v)]
    [∀ line fault, Keeps R (report line fault)] [∀ name, Keeps R (declareName name)]
    [Keeps R popScope] [∀ program, Keeps R (storeProgram program)]
    (hdefine : n.kind = .funcDef → Keeps R (exitFuncDef n))
    (hcall : n.kind = .call → ∀ callee, Keeps R (noteCall callee))
    (hrequire : n.kind = .require → ∀ name, Keeps R (noteLibrary name)) : Keeps R (exit n) :=
  keeps_exit_firm hdefine hcall hrequire fun _ _ => inferInstance

/-- A quiet exit keeps every firm relation that allows its value to be recorded. -/
theorem keeps_exit_quiet {n : Node} [∀ v, Keeps R (setValue n v)] (h : n.kind.isQuiet = true) :
    Keeps R (exit n) := by
  unfold exit
  split
  all_goals
    rename_i hkind
    rw [hkind] at h
    first
    | infer_instance
    | cases h

end Loose

section Wide

variable [Wide R]

instance (line : Int) (fault : SemanticFault) : Keeps R (report line fault) := by
  have : Keeps R (modify fun s => { s with errors := s.errors.add line fault.message } : Lower Unit) :=
    ⟨fun h => by cases h; exact Wide.errors _ _ _⟩
  exact inferInstanceAs (Keeps R (modify _ >>= _))

instance : Keeps R pushScope := ⟨fun h => by cases h; exact Wide.scopes _ _⟩

instance : Keeps R popScope := by
  refine ⟨fun h => ?_⟩
  obtain ⟨r, -, h⟩ := run_get_check h
  cases h
  exact Wide.scopes _ _

instance (scope : Scope) : Keeps R (setScope scope) :=
  ⟨fun h => by cases h; exact Wide.scopes _ _⟩

instance (name : String) : Keeps R (declareName name) := by
  unfold declareName
  infer_instance

instance (program : Program) : Keeps R (storeProgram program) :=
  ⟨fun h => by cases h; exact Wide.program _ _⟩

end Wide

/-! ## Walks

The induction over the tree, once for all relations: what every entry and exit keeps, the walk keeps,
and so does every part of it up to a moment in the middle. -/

mutual

/-- What is kept at every node is kept by a walk. -/
theorem keeps_walk_of [Rough R] {n : Node}
    (h : ∀ m ∈ n.nodesOnto [], Keeps R (enter m) ∧ Keeps R (exit m)) : Keeps R (walk n) := by
  cases n with
  | absent => exact inferInstanceAs (Keeps R (throw _ : Lower Unit))
  | mk id kind token children =>
    obtain ⟨henter, hexit⟩ := h _ List.mem_cons_self
    have : Keeps R (walkAll children) :=
      keeps_walkAll_of fun m hm => h m (List.mem_cons_of_mem _ hm)
    rw [walk]
    infer_instance

/-- What is kept at every node of some trees is kept by the walk of them one after the other. -/
theorem keeps_walkAll_of [Rough R] {ns : List Node}
    (h : ∀ m ∈ Node.nodesOntoAll [] ns, Keeps R (enter m) ∧ Keeps R (exit m)) :
    Keeps R (walkAll ns) := by
  cases ns with
  | nil =>
    rw [walkAll]
    infer_instance
  | cons n ns =>
    rw [Node.nodesOntoAll, Node.nodesOnto_eq_append] at h
    have : Keeps R (walk n) := keeps_walk_of fun m hm => h m (List.mem_append_left _ hm)
    have : Keeps R (walkAll ns) := keeps_walkAll_of fun m hm => h m (List.mem_append_right _ hm)
    rw [walkAll]
    infer_instance

end

/-- What is kept at every node is kept up to the moment at which a node is entered. -/
theorem rel_of_entered [Rough R] {ns : List Node} {m : Node} {s t : Lowering} (h : Entered ns s m t)
    (hkeeps : ∀ k ∈ Node.nodesOntoAll [] ns, Keeps R (enter k) ∧ Keeps R (exit k)) : R s t := by
  induction h with
  | here => exact Rough.refl _
  | inside henter h ih =>
    rw [Node.nodesOntoAll, Node.nodesOnto_eq_append] at hkeeps
    have henter' := (hkeeps _ (List.mem_append_left _ List.mem_cons_self)).1.rel henter
    apply Rough.trans henter'
    exact ih fun k hk => hkeeps k (List.mem_append_left _ (List.mem_cons_of_mem _ hk))
  | @after n m ns s s' t hn h ih =>
    rw [Node.nodesOntoAll, Node.nodesOnto_eq_append] at hkeeps
    have : Keeps R (walk n) := keeps_walk_of fun k hk => hkeeps k (List.mem_append_left _ hk)
    apply Rough.trans (Keeps.rel hn)
    exact ih fun k hk => hkeeps k (List.mem_append_right _ hk)

/-- What is kept at every event is kept by a part of a tour. -/
theorem keeps_events_of [Rough R] {events : List Event} (h : ∀ e ∈ events, Keeps R (step e)) :
    Keeps R (events.forM step) := by
  induction events with
  | nil => exact inferInstanceAs (Keeps R (pure () : Lower Unit))
  | cons e events ih =>
    have := h e List.mem_cons_self
    have := ih fun e he => h e (List.mem_cons_of_mem _ he)
    exact inferInstanceAs (Keeps R (step e >>= fun _ => events.forM step))

section Looser

variable [Looser R]

instance (callee : String) : Keeps R (noteCall callee) :=
  ⟨fun h => by cases h; exact Looser.calls _ _⟩

instance (name : String) : Keeps R (noteLibrary name) := by
  refine ⟨@fun s a s' h => ?_⟩
  cases h
  show R s (if s.requires.contains name then s else { s with requires := s.requires.push name })
  split
  · exact Rough.refl s
  · exact Looser.requires s _

/-- Only a definition changes what is defined. -/
theorem keeps_exit {n : Node} (h : n.kind = .funcDef → Keeps R (exitFuncDef n)) :
    Keeps R (exit n) :=
  keeps_exit_of h (fun _ _ => inferInstance) fun _ _ => inferInstance

theorem keeps_walk [Keeps R resetRegisters] {n : Node}
    (h : ∀ m ∈ n.nodesOnto [], m.kind = .funcDef → Keeps R (exitFuncDef m)) : Keeps R (walk n) :=
  keeps_walk_of fun m hm => ⟨keeps_enter fun _ => inferInstance, keeps_exit (h m hm)⟩

/-- A relation that every step keeps is kept by the walk of some trees. -/
theorem keeps_walkAll [Keeps R resetRegisters] {ns : List Node}
    (h : ∀ m ∈ Node.nodesOntoAll [] ns, m.kind = .funcDef → Keeps R (exitFuncDef m)) :
    Keeps R (walkAll ns) :=
  keeps_walkAll_of fun m hm => ⟨keeps_enter fun _ => inferInstance, keeps_exit (h m hm)⟩

end Looser

end Lower

/-! ## Errors -/

/-- A state without errors has none before it either. -/
def Clean (s s' : Lowering) : Prop := s'.errors = #[] → s.errors = #[]

instance : Looser Clean where
  refl _ := id
  trans h h' := h ∘ h'
  buffers _ _ := id
  fragments _ _ := id
  values _ _ := id
  labels _ _ _ := id
  registers _ := id
  scopes _ _ := id
  errors _ _ _ h := absurd h (by simp [ErrorList.add])
  notices _ _ := id
  requires _ _ := id
  stmtCall _ _ := id
  program _ _ := id
  calls _ _ := id

instance : Lower.Keeps Clean Lower.resetRegisters := ⟨fun h => by cases h; exact id⟩

instance (r : FunctionRecord Fragment) : Lower.Keeps Clean (Lower.storeFunction r) :=
  ⟨fun h => by cases h; exact id⟩

/-- Errors are never taken back. -/
theorem clean_of_walk {n : Node} {s s' : Lowering} (h : (Lower.walk n).run s = .ok ((), s'))
    (hclean : s'.errors = #[]) : s.errors = #[] := by
  have : Lower.Keeps Clean (Lower.walk n) := Lower.keeps_walk fun m _ _ => inferInstance
  exact this.rel h hclean

end ScriptPir

import ScriptPir.Compile
import ScriptPir.Proofs.Exits
import ScriptPir.Proofs.ScriptLowering

/-!
# Which semantic errors a program has

The errors of a program are read off its tree and the values of its expressions: `Node.fault?` says what
is wrong with a single node, given the variables declared before it in its subroutine, and `Node.faults`
collects this over the exits of the walk.

The walk of a tree is followed with the names in the innermost scope and the errors found so far. A
step lemma says what one exit does to both (`diagnoses_exit`); along the tree, the names in the innermost
scope are then those that the exits of the subroutine have declared (`diagnosed_walk`).

`semantic_errors_exact` — the errors found are the faults of the tree, in order, and a compilation gives
them sorted by line.
-/

namespace ScriptPir

/-! ## Faults

The specification: what is wrong with a node is told by its kind, the names declared before it in its
own subroutine, and the values of its operands. A fault of folding is reported only if both operands
are constants; whatever else cannot be folded is computed at run time and is no fault. -/

/-- What is reported on a line if an operation on constants fails. -/
def foldingFault? (line : Int) : Except FoldError Value → Option SemanticError
  | .ok _ => none
  | .error e => some ⟨line, e.message⟩

/-- What is wrong with a node, given the variables that are declared before it and the values of its
operands. -/
def Node.fault? (declared : String → Bool) (value : Int → Option Value) (n : Node) :
    Option SemanticError :=
  match n.kind with
  | .assign => do
    let target ← n.child? 0
    let op ← n.op?
    if op.text = "=" ∨ declared target.text then none
    else some ⟨target.line, "Undefined variable " ++ target.text ++ "!"⟩
  | .unary => do
    let op ← n.op?
    let v ← value (← n.child? 1).id
    if op.text = "-" ∧ v.isStatic then foldingFault? op.line (foldNeg v) else none
  | .binary => do
    let op ← n.op?
    let l ← value (← n.child? 0).id
    let r ← value (← n.child? 2).id
    if l.isStatic ∧ r.isStatic then foldingFault? op.line (fold op.text l r) else none
  | _ => none

/-- Whether some exits have made a name a variable of a subroutine. -/
def declaredIn (before : List Exit) (sub : Int) (x : String) : Bool :=
  before.any fun e => e.sub = sub && e.node.declares.contains x

/-- The faults of some exits, in order, after others. -/
def faultsFrom (value : Int → Option Value) (before : List Exit) : List Exit → List SemanticError
  | [] => []
  | e :: exits =>
    (e.node.fault? (declaredIn before e.sub) value).toList ++
      faultsFrom value (before ++ [e]) exits

/-- The faults of a tree, in the order of its exits. -/
def Node.faults (root : Node) (value : Int → Option Value) : List SemanticError :=
  faultsFrom value [] root.exits

/-- A name is declared by some exits if the first or the last of them declare it. -/
theorem declaredIn_append (xs ys : List Exit) (sub : Int) (x : String) :
    declaredIn (xs ++ ys) sub x = (declaredIn xs sub x || declaredIn ys sub x) := List.any_append

/-- Exits from other subroutines declare nothing in this one. -/
theorem declaredIn_eq_false {exits : List Exit} {sub : Int} (h : ∀ e ∈ exits, e.sub ≠ sub)
    (x : String) : declaredIn exits sub x = false := by
  refine List.any_eq_false.mpr fun e he => ?_
  simp [h e he]

/-- The faults of two parts are found one after the other, with the names of the first part known to the
second. -/
theorem faultsFrom_append (value : Int → Option Value) (before xs ys : List Exit) :
    faultsFrom value before (xs ++ ys) =
      faultsFrom value before xs ++ faultsFrom value (before ++ xs) ys := by
  induction xs generalizing before with
  | nil => rw [List.append_nil]; rfl
  | cons e xs ih => simp only [List.cons_append, faultsFrom, ih, List.append_assoc, List.nil_append]

section Kinds

variable {declared : String → Bool} {value : Int → Option Value} {n op : Node}

/-- A compound assignment to a variable that is not declared is a fault, a plain one never is. -/
theorem Node.fault?_assign {target : Node} (hkind : n.kind = .assign) (htarget : n.child? 0 = some target)
    (hop : n.op? = some op) : n.fault? declared value =
      if op.text = "=" ∨ declared target.text then none
      else some ⟨target.line, "Undefined variable " ++ target.text ++ "!"⟩ := by
  unfold Node.fault?
  rw [hkind, htarget, hop]
  rfl

/-- A minus sign in front of a constant is a fault if the constant cannot be negated. -/
theorem Node.fault?_unary {operand : Node} {v : Value} (hkind : n.kind = .unary) (hop : n.op? = some op)
    (hoperand : n.child? 1 = some operand) (hv : value operand.id = some v) : n.fault? declared value =
      if op.text = "-" ∧ v.isStatic then foldingFault? op.line (foldNeg v) else none := by
  unfold Node.fault?
  rw [hkind, hop, hoperand]
  show (value operand.id).bind _ = _
  rw [hv]
  rfl

/-- Arithmetic on constants is a fault if it cannot be folded. -/
theorem Node.fault?_binary {left right : Node} {l r : Value} (hkind : n.kind = .binary)
    (hop : n.op? = some op) (hleft : n.child? 0 = some left) (hl : value left.id = some l)
    (hright : n.child? 2 = some right) (hr : value right.id = some r) : n.fault? declared value =
      if l.isStatic ∧ r.isStatic then foldingFault? op.line (fold op.text l r) else none := by
  unfold Node.fault?
  rw [hkind, hop, hleft, hright]
  show (value left.id).bind (fun l => (value right.id).bind _) = _
  rw [hl, hr]
  rfl

end Kinds

/-- Only the values of children count. -/
theorem Node.fault?_congr {declared : String → Bool} {value value' : Int → Option Value} {n : Node}
    (h : ∀ i ∈ Node.idsAll n.children, value i = value' i) :
    n.fault? declared value = n.fault? declared value' := by
  -- only children are asked for their values, and a child has one of the ids below the node
  have hchild : ∀ i c, n.child? i = some c → value c.id = value' c.id := by
    intro i c hc
    obtain ⟨hmem, habsent⟩ := Node.child?_eq_some.mp hc
    apply h
    exact (Node.ids_sublist_idsAll (List.mem_of_getElem? hmem)).subset (c.id_mem_ids habsent)
  unfold Node.fault?
  split
  · rfl
  · cases hc : n.child? 1 with
    | none => rfl
    | some c => simp [hchild 1 c hc]
  · cases hl : n.child? 0 with
    | none => rfl
    | some l =>
      cases hr : n.child? 2 with
      | none => simp
      | some r => simp [hchild 0 l hl, hchild 2 r hr]
  · rfl

/-- An assignment and an operation with a sign start with their first child. -/
def Node.StartsFirst (n : Node) : Prop :=
  n.kind = .assign ∨ n.kind = .unary → ∀ c, n.child? 0 = some c → c.line = n.line

/-! ## What a step does to names and errors

The relation `Diagnoses` carries two things: the names that are added to the innermost scope, and the
errors that are found. Most steps disturb neither (`Undisturbed`), which the instances below say for
each kind of step; the rest compose. -/

/-- The variables of all scopes and the errors are the same in two states. -/
def Undisturbed (s s' : Lowering) : Prop := s'.names = s.names ∧ s'.errors = s.errors

instance : Lax Undisturbed where
  refl _ := ⟨rfl, rfl⟩
  trans h h' := ⟨h'.1.trans h.1, h'.2.trans h.2⟩
  buffers _ _ := ⟨rfl, rfl⟩
  fragments _ _ := ⟨rfl, rfl⟩
  labels _ _ _ := ⟨rfl, rfl⟩
  values _ _ := ⟨rfl, rfl⟩

instance : Loose Undisturbed where
  registers _ := ⟨rfl, rfl⟩
  bools s scope below h := by
    refine ⟨?_, rfl⟩
    show (scope.freshBool.2 :: below).map Scope.names = s.scopes.stack.map Scope.names
    rw [h]
    rfl
  notices _ _ := ⟨rfl, rfl⟩
  stmtCall _ _ := ⟨rfl, rfl⟩

instance : Lower.Keeps Undisturbed Lower.resetRegisters := ⟨fun h => by cases h; exact ⟨rfl, rfl⟩⟩

instance (callee : String) : Lower.Keeps Undisturbed (Lower.noteCall callee) :=
  ⟨fun h => by cases h; exact ⟨rfl, rfl⟩⟩

instance (r : FunctionRecord Fragment) : Lower.Keeps Undisturbed (Lower.storeFunction r) :=
  ⟨fun h => by cases h; exact ⟨rfl, rfl⟩⟩

instance (program : Program) : Lower.Keeps Undisturbed (Lower.storeProgram program) :=
  ⟨fun h => by cases h; exact ⟨rfl, rfl⟩⟩

instance (name : String) : Lower.Keeps Undisturbed (Lower.noteLibrary name) := by
  refine ⟨@fun s _ s' h => ?_⟩
  cases h
  show Undisturbed s (if s.requires.contains name then s else _)
  split <;> exact ⟨rfl, rfl⟩

/-- Whether a name is a variable of the innermost scope. -/
def Lowering.declared (s : Lowering) (x : String) : Bool := (s.names.headD #[]).contains x

/-- A scope knows a name once it is declared, and all names that it knew before. -/
theorem Scope.declared_declare (scope : Scope) (name x : String) :
    (scope.declare name).declared x = (scope.declared x || decide (name = x)) := by
  unfold Scope.declare
  split
  · rename_i hknown
    by_cases hx : name = x
    · rw [← hx, hknown]
      rfl
    · simp [hx]
  · show (scope.names.push name).contains x = _
    by_cases hx : name = x <;> simp [hx, Scope.declared, eq_comm]

/-- A name is declared in a state if the scope on top knows it. -/
theorem declared_of_stack {s : Lowering} {scope : Scope} {below : List Scope}
    (h : s.scopes.stack = scope :: below) (x : String) : s.declared x = scope.declared x := by
  unfold Lowering.declared Lowering.names
  rw [h]
  rfl

/-- Between two states, some names were declared in the innermost scope and some errors were found. -/
structure Diagnoses (names : List String) (faults : List SemanticError) (s s' : Lowering) : Prop where
  outer : s'.names.tail = s.names.tail
  declared : ∀ x, s'.declared x = (s.declared x || names.contains x)
  errors : s'.errors.toList = s.errors.toList ++ faults

namespace Diagnoses

variable {names names' : List String} {faults faults' : List SemanticError} {s s₁ s₂ : Lowering}

/-- A step that leaves names and errors alone adds none. -/
theorem of_undisturbed (h : Undisturbed s s₁) : Diagnoses [] [] s s₁ := by
  obtain ⟨hnames, herrors⟩ := h
  refine ⟨by rw [hnames], fun x => ?_, by rw [herrors, List.append_nil]⟩
  rw [Lowering.declared, hnames]
  exact (Bool.or_false _).symm

/-- Two steps add their names and their errors, in order. -/
theorem trans (h : Diagnoses names faults s s₁) (h' : Diagnoses names' faults' s₁ s₂) :
    Diagnoses (names ++ names') (faults ++ faults') s s₂ := by
  refine ⟨h'.outer.trans h.outer, fun x => ?_, ?_⟩
  · rw [h'.declared, h.declared, Bool.or_assoc, List.contains_append]
  · rw [h'.errors, h.errors, List.append_assoc]

theorem then_undisturbed (h : Diagnoses names faults s s₁) (h' : Undisturbed s₁ s₂) :
    Diagnoses names faults s s₂ := by
  have htrans := h.trans (of_undisturbed h')
  rwa [List.append_nil, List.append_nil] at htrans

theorem after_undisturbed (h : Undisturbed s s₁) (h' : Diagnoses names faults s₁ s₂) :
    Diagnoses names faults s s₂ :=
  (of_undisturbed h).trans h'

/-- A report adds one error, and no name. -/
theorem of_report {line : Int} {fault : SemanticFault}
    (h : (Lower.report line fault).run s = .ok ((), s₁)) :
    Diagnoses [] [⟨line, fault.message⟩] s s₁ := by
  rw [Lower.run_report] at h
  cases h
  exact ⟨rfl, fun x => (Bool.or_false _).symm, by simp [ErrorList.add]⟩

/-- A declaration adds one name, and no error. -/
theorem of_declareName {name : String} {known : Bool}
    (h : (Lower.declareName name).run s = .ok (known, s₁)) : Diagnoses [name] [] s s₁ := by
  obtain ⟨scope, below, hstack, -, rfl⟩ := Lower.exists_of_run_declareName h
  refine ⟨?_, fun x => ?_, (List.append_nil _).symm⟩
  · simp [Lowering.names, hstack]
  · have hdeclared : { s with scopes := ⟨scope.declare name :: below⟩ }.declared x =
        (scope.declare name).declared x := declared_of_stack rfl x
    rw [declared_of_stack hstack, hdeclared, Scope.declared_declare]
    simp [eq_comm]

end Diagnoses

/-! ## What an exit does to names and errors

One lemma for each kind of node that declares or reports, and one for all quiet kinds. In each of
them the exit is taken apart step by step, and the step that matters is compared with `Node.fault?`. -/

section Exits

open Lower

variable {n : Node} {s s' : Lowering}

theorem declares_of_isQuiet (h : n.kind.isQuiet = true) : n.declares = [] := by
  unfold Node.declares Node.defines?
  cases hkind : n.kind <;> simp_all [Kind.isQuiet]

theorem fault?_of_isQuiet (h : n.kind.isQuiet = true) (declared : String → Bool)
    (value : Int → Option Value) : n.fault? declared value = none := by
  unfold Node.fault?
  cases hkind : n.kind <;> simp_all [Kind.isQuiet]

theorem diagnoses_declare {name : String} {cls : Class}
    (h : (declare name cls).run s = .ok ((), s')) : Diagnoses [name] [] s s' := by
  obtain ⟨known, s₁, hname, hrest⟩ := run_bind_eq_ok h
  exact (Diagnoses.of_declareName hname).then_undisturbed (Keeps.rel hrest)

/-- An assignment adds its variable if it is plain; a compound one is a fault unless the variable is
known. -/
theorem diagnoses_exitAssign (hkind : n.kind = .assign) (hfirst : n.StartsFirst)
    (h : (exitAssign n).run s = .ok ((), s')) :
    Diagnoses n.declares (n.fault? s.declared s.value).toList s s' := by
  obtain ⟨code, s₁, hpop, h⟩ := run_bind_eq_ok h
  obtain ⟨target, htarget, h⟩ := of_bind_child h
  obtain ⟨op, hop, h⟩ := of_bind_operator h
  obtain ⟨e, he, h⟩ := of_bind_child h
  obtain ⟨v, hv, h⟩ := of_bind_valueOf h
  have hpopped : Undisturbed s s₁ := Keeps.rel hpop
  have hdeclared : s₁.declared = s.declared := by
    unfold Lowering.declared
    rw [hpopped.1]
  apply Diagnoses.after_undisturbed hpopped
  dsimp only at h
  -- a plain assignment declares its variable and has no fault
  by_cases hplain : op.text = "="
  · rw [if_pos hplain] at h
    have hdeclares : n.declares = [target.text] := by
      simp [Node.declares, Node.defines?, hkind, hop, hplain, htarget]
    have hfault : n.fault? s.declared s.value = none := by
      rw [Node.fault?_assign hkind htarget hop, if_pos (.inl hplain)]
    obtain ⟨_, s₆, hdeclare, h⟩ := run_bind_eq_ok h
    rw [hdeclares, hfault]
    exact (diagnoses_declare hdeclare).then_undisturbed (Keeps.rel h)
  · rw [if_neg hplain] at h
    have hdeclares : n.declares = [] := by
      simp [Node.declares, Node.defines?, hkind, hop, hplain]
    obtain ⟨scope, below, hstack, h⟩ := of_bind_topScope h
    -- a compound assignment looks into the scope on top, whose names are those of the state
    have hscope : scope.declared target.text = s.declared target.text := by
      rw [← hdeclared, declared_of_stack hstack]
    have hline : target.line = n.line := hfirst (.inl hkind) target htarget
    rw [hdeclares, Node.fault?_assign hkind htarget hop, hline]
    rw [hscope] at h
    cases hknown : s.declared target.text with
    | true =>
      rw [hknown, if_neg (by decide)] at h
      rw [if_pos (.inr rfl)]
      exact .of_undisturbed (Keeps.rel h)
    | false =>
      rw [hknown, if_pos (by decide)] at h
      rw [if_neg (not_or.mpr ⟨hplain, Bool.false_ne_true⟩)]
      obtain ⟨_, s₂, hreport, h⟩ := run_bind_eq_ok h
      exact (Diagnoses.of_report hreport).then_undisturbed (Keeps.rel h)

/-- An empty array adds its variable. -/
theorem diagnoses_exitArrayInit (hkind : n.kind = .arrayInit)
    (h : (exitArrayInit n).run s = .ok ((), s')) : Diagnoses n.declares [] s s' := by
  obtain ⟨target, htarget, h⟩ := of_bind_child h
  have hdeclares : n.declares = [target.text] := by
    simp [Node.declares, Node.defines?, hkind, htarget]
  obtain ⟨known, s₂, hname, h⟩ := run_bind_eq_ok h
  rw [hdeclares]
  exact (Diagnoses.of_declareName hname).then_undisturbed (Keeps.rel h)

/-- A global that is read adds the variable that it is stored in. -/
theorem diagnoses_exitGlobalGet (hkind : n.kind = .globalGet)
    (h : (exitGlobalGet n).run s = .ok ((), s')) : Diagnoses n.declares [] s s' := by
  obtain ⟨target, htarget, h⟩ := of_bind_child h
  have hdeclares : n.declares = [target.text] := by
    simp [Node.declares, Node.defines?, hkind, htarget]
  obtain ⟨_, s₂, hdeclare, h⟩ := run_bind_eq_ok h
  rw [hdeclares]
  exact (diagnoses_declare hdeclare).then_undisturbed (Keeps.rel h)

/-- The parameters are declared one after the other. -/
theorem diagnoses_params {ps : List Node} (h : (List.forM ps fun p => do
        let _ ← declareName p.text
        emit (.param p.text) : Lower Unit).run s = .ok ((), s')) :
    Diagnoses (ps.map Node.text) [] s s' := by
  induction ps generalizing s with
  | nil =>
    cases h
    exact .of_undisturbed (Rough.refl _)
  | cons p ps ih =>
    obtain ⟨_, s₁, hfirst, hrest⟩ := run_bind_eq_ok h
    obtain ⟨known, s₂, hname, hemit⟩ := run_bind_eq_ok hfirst
    have hparam := (Diagnoses.of_declareName hname).then_undisturbed (Keeps.rel hemit)
    exact hparam.trans (ih hrest)

/-- The list of parameters adds all of their names. -/
theorem diagnoses_exitParams (hkind : n.kind = .params) (h : (exitParams n).run s = .ok ((), s')) :
    Diagnoses n.declares [] s s' := by
  obtain ⟨scope, below, -, h⟩ := of_bind_topScope h
  obtain ⟨_, s₂, hparams, hstash⟩ := run_bind_eq_ok h
  have hdeclares : n.declares = n.children.map Node.text := by
    simp [Node.declares, hkind]
  rw [hdeclares]
  exact (diagnoses_params hparams).then_undisturbed (Keeps.rel hstash)

/-- A sign is a fault if it is a minus in front of a constant that has no negation. -/
theorem diagnoses_exitUnary (hkind : n.kind = .unary) (hfirst : n.StartsFirst)
    (h : (exitUnary n).run s = .ok ((), s')) :
    Diagnoses [] (n.fault? s.declared s.value).toList s s' := by
  obtain ⟨op, hop, h⟩ := of_bind_operator h
  obtain ⟨operand, hoperand, h⟩ := of_bind_child h
  obtain ⟨v, hv, h⟩ := of_bind_valueOf h
  have hchild : n.child? 0 = some op := by
    simpa [Node.op?, Node.opIndex?, hkind] using hop
  have hline : op.line = n.line := hfirst (.inr hkind) op hchild
  rw [Node.fault?_unary hkind hop hoperand hv, hline]
  split at h
  · rename_i hminus
    unfold exitNegation at h
    -- an operand of the run time is negated by an instruction, and nothing is reported
    cases hstatic : v.isStatic with
    | false =>
      rw [hstatic, if_neg Bool.false_ne_true] at h
      simpa [hstatic] using Diagnoses.of_undisturbed (Keeps.rel h)
    | true =>
      rw [hstatic, if_pos rfl] at h
      rw [if_pos ⟨hminus, rfl⟩]
      cases hfold : foldNeg v with
      | ok w =>
        rw [hfold] at h
        exact .of_undisturbed (Keeps.rel h)
      | error e =>
        rw [hfold] at h
        obtain ⟨_, s₄, hreport, h⟩ := run_bind_eq_ok h
        exact (Diagnoses.of_report hreport).then_undisturbed (Keeps.rel h)
  · rename_i hnot
    simpa [hnot] using Diagnoses.of_undisturbed (Keeps.rel h)
  · rename_i hnot
    simpa [hnot] using Diagnoses.of_undisturbed (Keeps.rel h)
  · cases h

/-- Arithmetic is a fault if it is folded in vain. -/
theorem diagnoses_exitBinary (hkind : n.kind = .binary) (h : (exitBinary n).run s = .ok ((), s')) :
    Diagnoses [] (n.fault? s.declared s.value).toList s s' := by
  obtain ⟨op, hop, h⟩ := of_bind_operator h
  obtain ⟨left, hleft, h⟩ := of_bind_child h
  obtain ⟨l, hl, h⟩ := of_bind_valueOf h
  obtain ⟨right, hright, h⟩ := of_bind_child h
  obtain ⟨r, hr, h⟩ := of_bind_valueOf h
  rw [Node.fault?_binary hkind hop hleft hl hright hr]
  -- operands of the run time are computed by an instruction, and nothing is reported
  by_cases hstatic : l.isStatic = true ∧ r.isStatic = true
  · rw [if_pos (by simpa using hstatic)] at h
    rw [if_pos hstatic]
    cases hfold : fold op.text l r with
    | ok w =>
      rw [hfold] at h
      exact .of_undisturbed (Keeps.rel h)
    | error e =>
      rw [hfold] at h
      obtain ⟨_, s₆, hreport, h⟩ := run_bind_eq_ok h
      exact (Diagnoses.of_report hreport).then_undisturbed (Keeps.rel h)
  · rw [if_neg (by simpa using hstatic)] at h
    rw [if_neg hstatic]
    exact .of_undisturbed (Keeps.rel h)

/-- What an exit declares and reports, if its node has no scope of its own. -/
theorem diagnoses_exit (hscope : n.kind.opensScope = false) (hfirst : n.StartsFirst)
    (h : (exit n).run s = .ok ((), s')) :
    Diagnoses n.declares (n.fault? s.declared s.value).toList s s' := by
  by_cases hquiet : n.kind.isQuiet = true
  · have : Keeps Undisturbed (exit n) := keeps_exit_quiet hquiet
    rw [declares_of_isQuiet hquiet, fault?_of_isQuiet hquiet]
    exact .of_undisturbed (this.rel h)
  · unfold exit at h
    -- by the kind of the node: those that open a scope are excluded, and the quiet ones are done
    cases hkind : n.kind with
    | program | funcDef =>
      rw [hkind] at hscope
      cases hscope
    | assign =>
      rw [hkind] at h
      exact diagnoses_exitAssign hkind hfirst h
    | unary =>
      rw [hkind] at h
      rw [show n.declares = [] by simp [Node.declares, Node.defines?, hkind]]
      exact diagnoses_exitUnary hkind hfirst h
    | binary =>
      rw [hkind] at h
      rw [show n.declares = [] by simp [Node.declares, Node.defines?, hkind]]
      exact diagnoses_exitBinary hkind h
    | params =>
      rw [hkind] at h
      rw [show n.fault? s.declared s.value = none by simp [Node.fault?, hkind]]
      exact diagnoses_exitParams hkind h
    | arrayInit =>
      rw [hkind] at h
      rw [show n.fault? s.declared s.value = none by simp [Node.fault?, hkind]]
      exact diagnoses_exitArrayInit hkind h
    | globalGet =>
      rw [hkind] at h
      rw [show n.fault? s.declared s.value = none by simp [Node.fault?, hkind]]
      exact diagnoses_exitGlobalGet hkind h
    | require | call =>
      rw [hkind] at h
      rw [show n.declares = [] by simp [Node.declares, Node.defines?, hkind],
        show n.fault? s.declared s.value = none by simp [Node.fault?, hkind]]
      exact .of_undisturbed (Keeps.rel h)
    | _ =>
      rw [hkind] at hquiet
      exact absurd rfl hquiet

-- the assembly of a program is a step of more parts than the search allows
set_option synthInstance.maxSize 512 in
/-- Where a walk leaves a scope, the names of the scope around it are in effect again. -/
theorem names_of_exit (hscope : n.kind.opensScope = true) (h : (exit n).run s = .ok ((), s')) :
    s'.names = s.names.tail ∧ s'.errors = s.errors := by
  -- the scope is popped in the middle of the exit; all steps around it leave names alone
  have hpop : ∀ {t t' : Lowering}, popScope.run t = .ok ((), t') → Undisturbed s t →
      Undisturbed t' s' → s'.names = s.names.tail ∧ s'.errors = s.errors := by
    intro t t' hrun hbefore hafter
    obtain ⟨scope, below, hstack, rfl⟩ := exists_of_run_popScope hrun
    refine ⟨?_, hafter.2.trans hbefore.2⟩
    rw [hafter.1, ← hbefore.1, Lowering.names, Lowering.names, hstack]
    rfl
  unfold exit at h
  cases hkind : n.kind with
  | program =>
    rw [hkind] at h
    obtain ⟨main, s₁, hmain, h⟩ := run_bind_eq_ok h
    obtain ⟨_, s₂, hscopes, h⟩ := run_bind_eq_ok h
    exact hpop hscopes (Keeps.rel hmain) (Keeps.rel h)
  | funcDef =>
    rw [hkind] at h
    obtain ⟨name, -, h⟩ := of_bind_child h
    obtain ⟨params, -, h⟩ := of_bind_child h
    obtain ⟨_, s₁, hparams, h⟩ := run_bind_eq_ok h
    obtain ⟨body, -, h⟩ := of_bind_child h
    obtain ⟨_, s₂, hbody, h⟩ := run_bind_eq_ok h
    obtain ⟨_, s₃, hscopes, h⟩ := run_bind_eq_ok h
    exact hpop hscopes (Rough.trans (Keeps.rel hparams) (Keeps.rel hbody)) (Keeps.rel h)
  | _ =>
    rw [hkind] at hscope
    cases hscope

/-- To enter a node without a scope changes neither names nor errors. -/
theorem undisturbed_of_enter (hscope : n.kind.opensScope = false)
    (h : (enter n).run s = .ok ((), s')) : Undisturbed s s' := by
  have : Keeps Undisturbed (enter n) := by
    refine keeps_enter_of (fun hopens => ?_) fun _ => inferInstance
    rw [hscope] at hopens
    cases hopens
  exact this.rel h

/-- To enter a node with a scope adds a scope without names. -/
theorem names_of_enter (hscope : n.kind.opensScope = true) (h : (enter n).run s = .ok ((), s')) :
    s'.names = #[] :: s.names ∧ s'.errors = s.errors := by
  unfold enter at h
  cases hkind : n.kind with
  | program | funcDef =>
    rw [hkind] at h
    cases h
    exact ⟨rfl, rfl⟩
  | _ =>
    rw [hkind] at hscope
    cases hscope

end Exits

/-! ## Walks

The induction over the walk. Since ids are unique, the exits of a subroutine inside do not count for
the one around it, and the other way round; that is what `Located` keeps. -/

/-- What holds where a walk comes to trees with some ids, in the subroutine of the node with the id `k`
and after the exits `before`. -/
structure Located (ids : List Int) (before : List Exit) (k : Int) (s : Lowering) : Prop where
  nodup : ids.Nodup
  outside : k ∉ ids
  earlier : ∀ e ∈ before, e.sub ∉ ids
  declared : ∀ x, s.declared x = declaredIn before k x

/-- Between two states, a walk has passed some exits after others. -/
structure Diagnosed (value : Int → Option Value) (before : List Exit) (k : Int) (exits : List Exit)
    (s s' : Lowering) : Prop where
  outer : s'.names.tail = s.names.tail
  declared : ∀ x, s'.declared x = declaredIn (before ++ exits) k x
  errors : s'.errors.toList = s.errors.toList ++ faultsFrom value before exits

section Walks

variable {value : Int → Option Value} {before exits exits' : List Exit} {k : Int}
  {s s₁ s₂ s₃ : Lowering} {n : Node}

/-- Exits that are passed one part after the other are passed together. -/
theorem Diagnosed.trans (h : Diagnosed value before k exits s s₁)
    (h' : Diagnosed value (before ++ exits) k exits' s₁ s₂) :
    Diagnosed value before k (exits ++ exits') s s₂ := by
  refine ⟨h'.outer.trans h.outer, fun x => ?_, ?_⟩
  · rw [h'.declared, List.append_assoc]
  · rw [h'.errors, h.errors, faultsFrom_append, List.append_assoc]

/-- A node without a scope of its own adds its names and its fault to those below it. -/
theorem Diagnosed.exit (henter : Undisturbed s s₁) (h : Diagnosed value before k exits s₁ s₂)
    (hvalue : ∀ i ∈ Node.idsAll n.children, value i = s₂.value i)
    (hexit : Diagnoses n.declares (n.fault? s₂.declared s₂.value).toList s₂ s₃) :
    Diagnosed value before k (exits ++ [⟨k, n⟩]) s s₃ := by
  have hdeclared : s₂.declared = declaredIn (before ++ exits) k := funext h.declared
  refine ⟨?_, fun x => ?_, ?_⟩
  · rw [hexit.outer, h.outer, henter.1]
  · rw [hexit.declared, h.declared, ← List.append_assoc, declaredIn_append _ [⟨k, n⟩]]
    simp [declaredIn]
  · rw [hexit.errors, h.errors, henter.2, faultsFrom_append, List.append_assoc, hdeclared,
      ← Node.fault?_congr hvalue]
    simp [faultsFrom]

/-- A node with a scope of its own leaves the scope around it as it was. -/
theorem Diagnosed.scope {own : Int} (hlocated : ∀ x, s.declared x = declaredIn before k x)
    (henter : s₁.names = #[] :: s.names ∧ s₁.errors = s.errors)
    (h : Diagnosed value before own exits s₁ s₂)
    (hexit : s₃.names = s₂.names.tail ∧ s₃.errors = s₂.errors)
    (hsubs : ∀ e ∈ exits ++ [⟨own, n⟩], e.sub ≠ k) (hscope : n.kind.opensScope = true) :
    Diagnosed value before k (exits ++ [⟨own, n⟩]) s s₃ := by
  have hnames : s₃.names = s.names := by
    rw [hexit.1, h.outer, henter.1]
    rfl
  have hfault : ∀ declared, n.fault? declared value = none := by
    intro declared
    unfold Node.fault?
    cases hkind : n.kind <;> simp_all [Kind.opensScope]
  refine ⟨by rw [hnames], fun x => ?_, ?_⟩
  · rw [declaredIn_append, declaredIn_eq_false hsubs, Bool.or_false, ← hlocated,
      Lowering.declared, hnames]
    rfl
  · rw [hexit.2, h.errors, henter.2, faultsFrom_append]
    simp [faultsFrom, hfault]

mutual

/-- The walk of a tree passes the exits of the tree, and reports their faults. -/
theorem diagnosed_walk {n : Node} {before : List Exit} {k : Int} {s s' : Lowering}
    (hlocated : Located n.ids before k s) (hfirst : ∀ m ∈ n.nodesOnto [], m.StartsFirst)
    (hvalue : ∀ i ∈ n.ids, value i = s'.value i) (h : (Lower.walk n).run s = .ok ((), s')) :
    Diagnosed value before k (n.exitsFrom k) s s' := by
  cases n with
  | absent =>
    rw [Lower.walk] at h
    cases h
  | mk id kind token children =>
    obtain ⟨s₁, s₂, henter, hchildren, hexit⟩ := Lower.exists_of_walk h
    obtain ⟨hid, hnodup⟩ := List.nodup_cons.mp hlocated.nodup
    have hbelow : ∀ m ∈ Node.nodesOntoAll [] children, m.StartsFirst :=
      fun m hm => hfirst m (List.mem_cons_of_mem _ hm)
    -- what is known of the nodes below when they were walked is what is known in the end
    have hvalue₂ : ∀ i ∈ Node.idsAll children, value i = s₂.value i := by
      intro i hi
      have hother : i ≠ id := fun heq => hid (heq ▸ hi)
      rw [hvalue i (List.mem_cons_of_mem _ hi), value_of_exit hexit hother]
    have hbefore : ∀ e ∈ before, e.sub ∉ Node.idsAll children :=
      fun e he hmem => hlocated.earlier e he (List.mem_cons_of_mem _ hmem)
    rw [Node.exitsFrom]
    cases hscope : kind.opensScope with
    | false =>
      have hopened := undisturbed_of_enter (n := .mk id kind token children) hscope henter
      have hlocated₁ : Located (Node.idsAll children) before k s₁ := by
        refine ⟨hnodup, fun hmem => hlocated.outside (List.mem_cons_of_mem _ hmem), hbefore, ?_⟩
        intro x
        rw [← hlocated.declared, Lowering.declared, hopened.1]
        rfl
      have hdiagnosed := diagnosed_walkAll hlocated₁ hbelow hvalue₂ hchildren
      have hleft := diagnoses_exit (n := .mk id kind token children) hscope
        (hfirst _ List.mem_cons_self) hexit
      exact hdiagnosed.exit hopened hvalue₂ hleft
    | true =>
      have hopened := names_of_enter (n := .mk id kind token children) hscope henter
      have hnone : ∀ x, declaredIn before id x = false :=
        declaredIn_eq_false fun e he heq => hlocated.earlier e he (heq ▸ List.mem_cons_self)
      have hlocated₁ : Located (Node.idsAll children) before id s₁ := by
        refine ⟨hnodup, hid, hbefore, fun x => ?_⟩
        rw [hnone, Lowering.declared, hopened.1]
        simp
      have hdiagnosed := diagnosed_walkAll hlocated₁ hbelow hvalue₂ hchildren
      have hleft := names_of_exit (n := .mk id kind token children) hscope hexit
      refine .scope hlocated.declared hopened hdiagnosed hleft (fun e he heq => ?_) hscope
      -- the exits below belong to this node or to one below it, and not to the scope around
      apply hlocated.outside
      rcases List.mem_append.mp he with he | he
      · rcases Node.sub_of_mem_exitsFromAll he with hsub | hsub
        · rw [← heq, hsub]
          exact List.mem_cons_self
        · rw [← heq]
          exact List.mem_cons_of_mem _ hsub
      · rw [← heq, List.mem_singleton.mp he]
        exact List.mem_cons_self

/-- The walk of some trees passes their exits, and reports their faults. -/
theorem diagnosed_walkAll {ns : List Node} {before : List Exit} {k : Int} {s s' : Lowering}
    (hlocated : Located (Node.idsAll ns) before k s)
    (hfirst : ∀ m ∈ Node.nodesOntoAll [] ns, m.StartsFirst)
    (hvalue : ∀ i ∈ Node.idsAll ns, value i = s'.value i)
    (h : (Lower.walkAll ns).run s = .ok ((), s')) :
    Diagnosed value before k (Node.exitsFromAll k ns) s s' := by
  cases ns with
  | nil =>
    rw [Lower.walkAll] at h
    cases h
    refine ⟨rfl, fun x => ?_, (List.append_nil _).symm⟩
    rw [hlocated.declared, Node.exitsFromAll, List.append_nil]
  | cons n ns =>
    obtain ⟨s₁, hn, hns⟩ := Lower.exists_of_walkAll h
    obtain ⟨hnodup₁, hnodup₂, hdisjoint⟩ := List.nodup_append.mp hlocated.nodup
    rw [Node.nodesOntoAll, Node.nodesOnto_eq_append] at hfirst
    have houtside : k ∉ n.ids ∧ k ∉ Node.idsAll ns := by
      have hk := hlocated.outside
      rwa [Node.idsAll, List.mem_append, not_or] at hk
    -- the later trees leave the values of the first one as they are
    have hvalue₁ : ∀ i ∈ n.ids, value i = s₁.value i := by
      intro i hi
      rw [hvalue i (List.mem_append_left _ hi),
        value_of_walkAll hns fun hlater => hdisjoint i hi i hlater rfl]
    have hlocated₁ : Located n.ids before k s :=
      ⟨hnodup₁, houtside.1, fun e he hmem => hlocated.earlier e he (List.mem_append_left _ hmem),
        hlocated.declared⟩
    have hdiagnosed := diagnosed_walk hlocated₁ (fun m hm => hfirst m (List.mem_append_left _ hm))
      hvalue₁ hn
    -- the exits of the first tree belong to this subroutine, or to one inside of it
    have hlocated₂ : Located (Node.idsAll ns) (before ++ n.exitsFrom k) k s₁ := by
      refine ⟨hnodup₂, houtside.2, fun e he hmem => ?_, hdiagnosed.declared⟩
      rcases List.mem_append.mp he with he | he
      · exact hlocated.earlier e he (List.mem_append_right _ hmem)
      · rcases Node.sub_of_mem_exitsFrom he with hsub | hsub
        · exact houtside.2 (hsub ▸ hmem)
        · exact hdisjoint _ hsub _ hmem rfl
    exact hdiagnosed.trans (diagnosed_walkAll hlocated₂
      (fun m hm => hfirst m (List.mem_append_right _ hm))
      (fun i hi => hvalue i (List.mem_append_right _ hi)) hns)

end

end Walks

/-! ## Programs

At the start no name is declared and no error was found, so the errors at the end are the faults of
the whole tree. A compilation sorts them by line, and those of one line stay in the order of the
walk. -/

/-- In a parsed tree an assignment and a sign stand on the line of their first child. -/
theorem startsFirst_of_fits {m : Node} {t : Lowering} (h : Fits m t) : m.StartsFirst := by
  intro hkind c hc
  obtain ⟨hc, -⟩ := Node.child?_eq_some.mp hc
  -- nodes that are no operation, sign or assignment are of other kinds
  cases h with
  | @expr e =>
    cases e with
    | unary id sign operand =>
      cases hc
      rfl
    | operation id left op right =>
      have hop := op.kind_cases
      rw [show (Shape.Expr.operation id left op right).node.kind = op.op.kind from rfl] at hkind
      grind
    | constant | var | global | paren | element | call => rcases hkind with hkind | hkind <;> cases hkind
  | @simple x =>
    cases x with
    | assignment a =>
      cases a with
      | assign id name op value =>
        cases hc
        rfl
      | arrayInit | store | globalGet => rcases hkind with hkind | hkind <;> cases hkind
    | globalSet | require | target | call => rcases hkind with hkind | hkind <;> cases hkind
  | unused => rcases hkind with hkind | hkind <;> cases hkind
  | other hexpr hsimple =>
    rcases hkind with hkind | hkind
    · rw [hkind] at hsimple
      cases hsimple
    · rw [hkind] at hexpr
      cases hexpr

/-- The errors that a lowering finds are the faults of its tree. -/
theorem errors_of_parse {src : Source} {root : Node} (hparse : parse src = .ok root)
    (label stdlib : String) :
    ∃ final, lower root label stdlib = .ok final ∧
      final.errors.toList = root.faults final.value := by
  obtain ⟨script, E, s, hroot, -, hnodup, -, hlowers⟩ := exists_lowers hparse label stdlib
  obtain ⟨_, hscript, -, -, hnonneg⟩ := exists_script_of_parse hparse
  rw [← hscript, hroot] at hnonneg
  subst hroot
  have hfirst : ∀ m ∈ script.node.nodesOnto [], m.StartsFirst := by
    intro m hm
    obtain ⟨t, hentered⟩ := exists_entered hlowers.visits.run hm
    exact startsFirst_of_fits (hlowers.visits.fits m t hentered)
  -- nothing is declared outside the program, where the walk starts
  have hlocated : Located script.node.ids [] (-1) (.started label stdlib) := by
    refine ⟨hnodup, fun hmem => ?_, by simp, fun x => ?_⟩
    · have hle : (0 : Int) ≤ -1 := hnonneg _ hmem
      omega
    · simp [declaredIn, Lowering.declared, Lowering.names, Lowering.started]
  have hdiagnosed : Diagnosed s.value [] (-1) _ _ _ :=
    diagnosed_walk hlocated hfirst (fun _ _ => rfl) hlowers.visits.run
  refine ⟨_, lower_eq_of_walk hnodup hlowers.visits.run, ?_⟩
  show s.errors.toList = script.node.faults s.value
  rw [hdiagnosed.errors]
  rfl

/-- The errors of a list in the order of their lines, those on one line in the order of the list. -/
structure StablySorted (found sorted : List SemanticError) : Prop where
  ordered : sorted.Pairwise fun a b => a.line ≤ b.line
  kept : ∀ line, sorted.filter (·.line = line) = found.filter (·.line = line)

/-- The list of errors is sorted by line, and stays as it is on each line. -/
theorem stablySorted_sort (errors : ErrorList) : StablySorted errors.toList errors.sort.toList := by
  have htrans : ∀ a b c : SemanticError, decide (a.line ≤ b.line) = true →
      decide (b.line ≤ c.line) = true → decide (a.line ≤ c.line) = true := by
    intro a b c hab hbc
    simp only [decide_eq_true_eq] at *
    omega
  have htotal : ∀ a b : SemanticError, (decide (a.line ≤ b.line) || decide (b.line ≤ a.line)) = true := by
    intro a b
    simp only [Bool.or_eq_true, decide_eq_true_eq]
    omega
  refine ⟨(List.pairwise_mergeSort htrans htotal _).imp of_decide_eq_true, fun line => ?_⟩
  -- the errors on one line are in order before, so sorting keeps them as they are
  have hline : (errors.toList.filter (·.line = line)).Pairwise
      fun a b => decide (a.line ≤ b.line) = true := by
    apply List.pairwise_of_forall_mem_list
    intro a ha b hb
    have ha : a.line = line := by simpa using (List.mem_filter.mp ha).2
    have hb : b.line = line := by simpa using (List.mem_filter.mp hb).2
    rw [ha, hb]
    exact decide_eq_true (Int.le_refl line)
  have hsublist := List.sublist_mergeSort htrans htotal hline List.filter_sublist
  have hkept := hsublist.filter (·.line = line)
  simp only [List.filter_filter, Bool.and_self] at hkept
  have hperm := (List.mergeSort_perm errors.toList fun a b => decide (a.line ≤ b.line)).filter
    (·.line = line)
  exact (hkept.eq_of_length hperm.length_eq.symm).symm

/-- A source that can be parsed and lowered is compiled to its output and its sorted errors. -/
theorem outcome_compile {source : Stream} {label : String} {c : Config} (site : Site)
    {encoding : Encoding} {root : Node} {final : Lowering}
    (hencoding : Encoding.ofName? c.encoding = some encoding)
    (hparse : parse (encoding.decode source) = .ok root)
    (hlower : lower root label (if c.stdlib = "" then defaultStdlib else c.stdlib) = .ok final) :
    (compile source label c site).outcome =
      .ok ⟨label, header label c site ++ final.output, final.errors.sort⟩ := by
  rw [compile, hencoding]
  dsimp only
  rw [hparse]
  dsimp only [compileTree]
  rw [hlower]

/-- The semantic errors of a program are the faults of its tree, one for each, in the order of the exits
of the walk; a compilation gives them sorted by line, and fails if and only if there are any. -/
theorem semantic_errors_exact {src : Source} {root : Node} (hparse : parse src = .ok root)
    (label : String) :
    (∀ stdlib, ∃ final, lower root label stdlib = .ok final ∧
      final.errors.toList = root.faults final.value) ∧
    ∀ (source : Stream) (c : Config) (site : Site) (encoding : Encoding),
      Encoding.ofName? c.encoding = some encoding → encoding.decode source = src →
      ∃ final compilation,
        lower root label (if c.stdlib = "" then defaultStdlib else c.stdlib) = .ok final ∧
        (compile source label c site).outcome = .ok compilation ∧
        StablySorted (root.faults final.value) compilation.errors.toList ∧
        (compilation.failed = false ↔ root.faults final.value = []) := by
  refine ⟨errors_of_parse hparse label, ?_⟩
  rintro source c site encoding hencoding rfl
  obtain ⟨final, hlower, herrors⟩ := errors_of_parse hparse label
    (if c.stdlib = "" then defaultStdlib else c.stdlib)
  refine ⟨final, _, hlower, outcome_compile site hencoding hparse hlower, ?_, ?_⟩
  · rw [← herrors]
    exact stablySorted_sort final.errors
  · rw [← herrors]
    have hperm : final.errors.sort.toList.Perm final.errors.toList := List.mergeSort_perm _ _
    have hsorted : final.errors.sort.toList = [] ↔ final.errors.toList = [] :=
      ⟨fun h => (h ▸ hperm).nil_eq.symm, fun h => (h ▸ hperm).eq_nil⟩
    simpa [Compilation.failed] using hsorted

/-- A program with a fault of every kind, some of them in a function that is not called. -/
def faulty : Stream := .ofString "def f(a)
  a += 1
  b -= \"x\" * 2.5
end
x = -\"s\" + 1 / 0
y *= x
x += 2
"

example : ((parse (Encoding.utf8.decode faulty)).toOption.any fun root =>
    (lower root "faulty" defaultStdlib).toOption.any fun final => root.faults final.value =
      [⟨3, "Unsupported operands for *: String and Float!"⟩, ⟨3, "Undefined variable b!"⟩,
        ⟨5, "Unsupported operand for -: String!"⟩, ⟨5, "Division by zero!"⟩,
        ⟨6, "Undefined variable y!"⟩]) = true := by
  decide +kernel

/-- Applied to the program above, with a fault of every kind. -/
theorem semantic_errors_faulty :
    ∃ root, parse (Encoding.utf8.decode faulty) = .ok root ∧
      (∀ stdlib, ∃ final, lower root "faulty" stdlib = .ok final ∧
        final.errors.toList = root.faults final.value) ∧
      ∀ site, ∃ final compilation, lower root "faulty" defaultStdlib = .ok final ∧
        (compile faulty "faulty" {} site).outcome = .ok compilation ∧
        StablySorted (root.faults final.value) compilation.errors.toList ∧
        (compilation.failed = false ↔ root.faults final.value = []) := by
  have hok : (parse (Encoding.utf8.decode faulty)).isOk = true := by decide +kernel
  cases hparse : parse (Encoding.utf8.decode faulty) with
  | error e => rw [hparse] at hok; cases hok
  | ok root =>
    obtain ⟨herrors, hcompile⟩ := semantic_errors_exact hparse "faulty"
    refine ⟨root, rfl, herrors, fun site => ?_⟩
    exact hcompile faulty {} site .utf8 (by decide +kernel) rfl

end ScriptPir

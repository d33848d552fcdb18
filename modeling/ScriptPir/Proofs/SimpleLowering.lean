import ScriptPir.Proofs.ExpressionLowering
import ScriptPir.Proofs.Keeping
import ScriptPir.Proofs.Layout

/-!
# What the walk of a simple statement does

Which instructions a statement without a block is lowered to depends on the registers that are free and
on the variables declared before it. Both make up the `Spot` of the statement.

* `Simple.code` gives the instructions of a statement at a spot, and `Simple.after` the spot behind it;
* `visits_simple` — walking a statement writes exactly these instructions, from every state that can
  enter it, and nothing else of it is left behind.

The instructions run one after the other, whatever the spot (`plain_simple`).

* `Performs` — a state is reached by writing some instructions, with the spot behind them;
* `visits_assignment` — assignments, in their four sorts;
* `visits_unused` — a call whose result is not used.
-/

namespace ScriptPir

open Shape Lowered

/-! ## The code of expressions

Expressions are lowered without jumps: also `and` and `or` evaluate both sides. -/

theorem plain_andThen {α β : Type} {x : Lowered α} {f : α → Supply → Lowered β} (hx : Plain x.code)
    (hf : ∀ a s, Plain (f a s).code) : Plain (x.andThen f).code :=
  plain_append hx (hf _ _)

/-- A negation does not jump. -/
theorem plain_negated (v : Value) (s : Supply) : Plain (negated v s).code := by
  unfold negated
  cases foldNeg v with
  | ok w => exact plain_nil
  | error e => exact plain_cons rfl (plain_cons rfl plain_nil)

/-- Arithmetic does not jump. -/
theorem plain_computed (op : String) (l r : Value) (s : Supply) :
    Plain (computed op l r s).code := by
  unfold computed
  cases fold op l r with
  | ok w => exact plain_nil
  | error e =>
    refine plain_cons rfl (plain_cons ?_ plain_nil)
    split <;> rfl

/-- A sign does not jump. -/
theorem plain_signed (sign : String) (v : Value) (s : Supply) : Plain (signed sign v s).code := by
  unfold signed
  split
  · exact plain_negated v s
  · exact plain_cons rfl plain_nil

/-- An operation does not jump. -/
theorem plain_operated (op : BinaryOp) (l r : Value) (s : Supply) :
    Plain (operated op l r s).code := by
  cases htest : BoolOp.ofText? op.text with
  | none => rw [operated_eq_computed htest]; exact plain_computed _ l r s
  | some test => rw [operated_eq_test htest]; exact plain_cons rfl plain_nil

mutual

/-- The code of an expression does not jump. -/
theorem plain_lowered (e : Expr) (s : Supply) : Plain (e.lowered s).code := by
  cases e with
  | constant | var => exact plain_nil
  | global => exact plain_cons rfl plain_nil
  | paren _ _ inner _ => exact plain_lowered inner s
  | unary _ sign operand => exact plain_andThen (plain_lowered operand s) (plain_signed sign.text)
  | operation _ left op right =>
    refine plain_andThen (plain_lowered left s) fun l s => ?_
    exact plain_andThen (plain_lowered right s) (plain_operated op l)
  | element parts index => exact plain_andThen (plain_lowered index s) fun _ _ => plain_nil
  | call parts args =>
    exact plain_andThen (plain_loweredArgs args s) fun _ _ => plain_cons rfl plain_nil

/-- The code of arguments does not jump. -/
theorem plain_loweredArgs (a : Args) (s : Supply) : Plain (a.lowered s).code := by
  cases a with
  | nil => exact plain_nil
  | cons id name value rest =>
    refine plain_andThen (plain_lowered value s) fun v s => ?_
    exact plain_andThen (plain_loweredArgs rest s) fun _ _ => plain_nil

end

/-! ## Statements

The specification: code and spot behind a statement as functions of the spot in front of it. In the
code of an assignment the declaration comes first, although the walk finds out only at the end
whether it is needed. -/

namespace Shape

/-- The registers that are free at a point of a subroutine, and the variables declared. -/
structure Spot extends Supply where
  names : Array String

namespace Spot

/-- Starts again from the first object register. -/
def reset (σ : Spot) : Spot := { σ with objects := 0 }

/-- The spot behind the computation of a value. -/
def spend (σ : Spot) (s : Supply) : Spot := { σ with toSupply := s }

/-- Declares a variable, if its name is new. -/
def declare (σ : Spot) (x : String) : Spot :=
  if σ.names.contains x then σ else { σ with names := σ.names.push x }

/-- The instructions for a variable that an assignment declares, if its name is new. -/
def declaration (σ : Spot) (x : String) (construct : List Instr) : List Instr :=
  if σ.names.contains x then [] else .declare x :: construct

end Spot

/-- The value of an expression at a spot, with object registers from the first one on. -/
def Expr.assigned (e : Expr) (σ : Spot) : Lowered Value := e.lowered σ.reset.toSupply

/-- The instructions of an assignment. -/
def Assignment.code : Assignment → Spot → List Instr
  | .assign _ name op value, σ =>
    (if op.text = "=" then
        σ.declaration name.text [.construct (.name name.text) (value.assigned σ).result.cls]
      else []) ++ (value.assigned σ).code ++
      [if op.text = "**=" then .assignPower name.text (value.assigned σ).result
        else .assign name.text op.text (value.assigned σ).result]
  | .arrayInit _ name _, σ =>
    σ.declaration name.text [] ++ [.construct (.name name.text) .array]
  | .store _ target index _ value, σ =>
    let place := (Expr.element target index).assigned σ
    let v := value.lowered place.supply
    place.code ++ v.code ++ [.store place.result v.result]
  | .globalGet _ name _ global, σ =>
    σ.declaration name.text [.construct (.name name.text) .integer] ++
      [.loadGlobal name.text (Lower.globalName global.node)]

/-- The spot behind an assignment. -/
def Assignment.after : Assignment → Spot → Spot
  | .assign _ name op value, σ =>
    if op.text = "=" then (σ.spend (value.assigned σ).supply).declare name.text
    else σ.spend (value.assigned σ).supply
  | .arrayInit _ name _, σ => σ.declare name.text
  | .store _ target index _ value, σ =>
    σ.spend (value.lowered ((Expr.element target index).assigned σ).supply).supply
  | .globalGet _ name _ _, σ => σ.declare name.text

/-- An assignment that changes a variable has it declared. -/
def Assignment.Defined : Assignment → Spot → Prop
  | .assign _ name op _, σ => op.text = "=" ∨ σ.names.contains name.text = true
  | _, _ => True

/-- The instructions of a simple statement. -/
def Simple.code : Simple → Spot → List Instr
  | .assignment a, σ => a.code σ
  | .globalSet _ global _ value, σ =>
    (value.assigned σ).code ++
      [.setGlobal (Lower.globalName global.node) (value.assigned σ).result]
  | .require .., _ => []
  | .target _ code, _ => (Text.trimmedLines code.token.text).map .raw
  | .call _ parts args, σ =>
    let as := args.lowered σ.reset.toSupply
    as.code ++ [.call none parts.callee.text as.result]

/-- The spot behind a simple statement. -/
def Simple.after : Simple → Spot → Spot
  | .assignment a, σ => a.after σ
  | .globalSet _ _ _ value, σ => σ.spend (value.assigned σ).supply
  | .require .., σ => σ
  | .target .., σ => σ
  | .call _ _ args, σ => σ.spend (args.lowered σ.reset.toSupply).supply

/-- A simple statement changes declared variables only. -/
def Simple.Defined : Simple → Spot → Prop
  | .assignment a, σ => a.Defined σ
  | _, _ => True

end Shape

/-- A declaration does not jump if the construction does not. -/
theorem plain_declaration (σ : Spot) (x : String) {construct : List Instr} (h : Plain construct) :
    Plain (σ.declaration x construct) := by
  unfold Spot.declaration
  split
  · exact plain_nil
  · exact plain_cons rfl h

/-- The code of an assignment does not jump. -/
theorem plain_assignment (a : Assignment) (σ : Spot) : Plain (a.code σ) := by
  -- an assignment is a declaration, the code of a value and one instruction, any of which may be
  -- missing
  cases a with
  | assign id name op value =>
    refine plain_append (plain_append ?_ (plain_lowered value _)) ?_
    · split
      · exact plain_declaration σ _ (plain_cons rfl plain_nil)
      · exact plain_nil
    · refine plain_cons ?_ plain_nil
      split <;> rfl
  | arrayInit id name op =>
    exact plain_append (plain_declaration σ _ plain_nil) (plain_cons rfl plain_nil)
  | store id target index op value =>
    refine plain_append (plain_append ?_ (plain_lowered value _)) (plain_cons rfl plain_nil)
    exact plain_lowered (.element target index) _
  | globalGet id name op global =>
    exact plain_append (plain_declaration σ _ (plain_cons rfl plain_nil)) (plain_cons rfl plain_nil)

/-- A simple statement is no jump, wherever it stands. -/
theorem plain_simple (x : Simple) (σ : Spot) : Plain (x.code σ) := by
  cases x with
  | assignment a => exact plain_assignment a σ
  | globalSet id global op value =>
    exact plain_append (plain_lowered value _) (plain_cons rfl plain_nil)
  | require => exact plain_nil
  | target id code =>
    intro i hi
    obtain ⟨line, -, rfl⟩ := List.mem_map.mp hi
    rfl
  | call id parts args => exact plain_append (plain_loweredArgs args _) (plain_cons rfl plain_nil)

/-! ## States and spots

`Performs` is what a step of an exit is followed with: the code so far, and the spot so far. Each
primitive step has a rule that adds its instruction or changes the spot. -/

/-- The spot of a state. -/
def Lowering.spot (s : Lowering) : Spot := { s.supply with names := s.names.headD #[] }

/-- Between two states, a statement wrote its instructions and led to a spot. -/
structure Performs (s : Lowering) (ids : List Int) (code : List Instr) (σ : Spot) (s' : Lowering) :
    Prop where
  writes : Writes s ids (instrs code) 0 s'
  spot : s'.spot = σ

/-- To compute a value spends its registers and declares nothing. -/
theorem Computes.spot {s s' : Lowering} {ids : List Int} {id : Int} {r : Lowered Value}
    (h : Computes s ids id r s') : s'.spot = s.spot.spend r.supply := by
  unfold Lowering.spot
  rw [h.supply, h.names]
  rfl

section Steps

variable {s s₁ : Lowering} {ids ids' : List Int} {code : List Instr} {σ : Spot}

theorem Performs.refl (s : Lowering) : Performs s [] [] s.spot s := ⟨.refl s, rfl⟩

/-- A step may be said to find out values for more nodes than it does. -/
theorem Performs.mono (h : Performs s ids code σ s₁) (hsub : ids ⊆ ids') :
    Performs s ids' code σ s₁ := ⟨h.writes.mono hsub, h.spot⟩

/-- An instruction is added to the code. -/
theorem Performs.then_emit (h : Performs s ids code σ s₁) (hb : s.buffers.stack ≠ []) (i : Instr) :
    (Lower.emit i).Reaches s₁ (Performs s ids (code ++ [i]) σ) := by
  obtain ⟨top, below, htop⟩ := List.exists_cons_of_ne_nil (h.writes.buffers_ne hb)
  obtain ⟨s₂, hrun, hwrites⟩ := reaches_emit (h.writes.buffers_ne hb) i
  refine ⟨s₂, hrun, ?_, ?_⟩
  · have htrans := h.writes.trans hwrites
    rw [List.append_nil] at htrans
    simpa [instrs] using htrans
  · cases (Lower.run_emit i htop).symm.trans hrun
    exact h.spot

/-- The code of an expression, taken from the fragment that was started for it, is placed. -/
theorem Performs.then_splice (h : Performs s ids code σ s₁) (hb : s.buffers.stack ≠ [])
    (part : List Instr) :
    (Lower.splice (instrs part).toArray).Reaches s₁ (Performs s ids (code ++ part) σ) := by
  obtain ⟨top, below, htop⟩ := List.exists_cons_of_ne_nil (h.writes.buffers_ne hb)
  obtain ⟨s₂, hrun, hwrites⟩ := reaches_splice (h.writes.buffers_ne hb) (instrs part)
  refine ⟨s₂, hrun, ?_, ?_⟩
  · have htrans := h.writes.trans hwrites
    rw [List.append_nil] at htrans
    simpa [instrs] using htrans
  · cases (Lower.run_splice _ htop).symm.trans hrun
    exact h.spot

/-- A report adds no code. -/
theorem Performs.report (h : Performs s ids code σ s₁) (line : Int) (fault : SemanticFault) :
    Performs s ids code σ { s₁ with
      errors := s₁.errors.add line fault.message
      notices := s₁.notices.push (.semanticError line fault.message) } := by
  obtain ⟨⟨hpassage, hfragment⟩, hspot⟩ := h
  exact ⟨⟨⟨hpassage.buffers, hpassage.scopes, hpassage.frames, hpassage.loops, hpassage.next,
    hpassage.stmtCall, hpassage.value⟩, hfragment⟩, hspot⟩

/-- A name is declared at the spot of a state. -/
theorem Performs.then_declareName (h : Performs s ids code σ s₁) (hs : s.scopes.stack ≠ [])
    (name : String) :
    ∃ s₂, (Lower.declareName name).run s₁ = .ok (σ.names.contains name, s₂) ∧
      Performs s ids code (σ.declare name) s₂ := by
  obtain ⟨scope, scopes, hscope⟩ := List.exists_cons_of_ne_nil (h.writes.scopes_ne hs)
  have hspot := h.spot
  simp only [Lowering.spot, Lowering.supply, Lowering.names, hscope, List.head?_cons,
    Option.map_some, Option.getD_some, List.map_cons, List.headD_cons] at hspot
  have hrun := Lower.run_declareName name hscope
  -- the scope on top has the names that the spot has
  have hknown : scope.declared name = σ.names.contains name := by
    rw [← hspot]
    rfl
  rw [hknown] at hrun
  refine ⟨_, hrun, ⟨⟨h.writes.passage.buffers, ?_, h.writes.passage.frames, h.writes.passage.loops,
    h.writes.passage.next, h.writes.passage.stmtCall, h.writes.passage.value⟩, h.writes.fragment⟩, ?_⟩
  · obtain ⟨f, hf⟩ := h.writes.passage.scopes
    obtain ⟨first, rest, hfirst⟩ := List.exists_cons_of_ne_nil hs
    refine ⟨fun _ => scope.declare name, ?_⟩
    rw [hfirst, List.modifyHead_cons] at hf ⊢
    rw [hf] at hscope
    rw [(List.cons.inj hscope).2]
  · unfold Spot.declare
    rw [← hknown, ← hspot]
    unfold Lowering.spot Lowering.supply Lowering.names Scope.declare
    cases scope.declared name <;> rfl

/-- A variable is declared and constructed, if it is new. -/
theorem Performs.then_declare (h : Performs s ids code σ s₁) (hb : s.buffers.stack ≠ [])
    (hs : s.scopes.stack ≠ []) (name : String) (cls : Class) :
    (Lower.declare name cls).Reaches s₁
      (Performs s ids (code ++ σ.declaration name [.construct (.name name) cls])
        (σ.declare name)) := by
  obtain ⟨s₂, hrun, h₂⟩ := h.then_declareName hs name
  refine .bind hrun ?_
  unfold Spot.declaration
  cases σ.names.contains name with
  | true =>
    refine ⟨s₂, rfl, ?_⟩
    rw [if_pos rfl, List.append_nil]
    exact h₂
  | false =>
    refine .then (h₂.then_emit hb (.declare name)) fun s₃ h₃ => ?_
    refine (h₃.then_emit hb (.construct (.name name) cls)).mono fun s₄ h₄ => ?_
    rw [List.append_assoc] at h₄
    exact h₄

end Steps

/-! ## Assignments

The value is computed in a fragment of its own (`Valued`), which the exit places behind the
declaration. -/

section Assignments

variable {s s₁ s₂ : Lowering} {ids : List Int} {id : Int} {code : List Instr} {σ : Spot}

/-- What is known of a statement's value once its expressions are walked, in a fragment of its own. -/
structure Valued (s : Lowering) (ids : List Int) (code : List Instr) (σ : Spot) (s' : Lowering) :
    Prop where
  writes : Writes { s with registers := s.registers.reset, buffers := s.buffers.push } ids
    (instrs code) 0 s'
  spot : s'.spot = σ

namespace Valued

theorem run_popBuffer (h : Valued s ids code σ s₁) :
    Lower.popBuffer.run s₁ = .ok ((instrs code).toArray, { s₁ with buffers := s.buffers }) :=
  run_popBuffer_of_passage (s := { s with registers := s.registers.reset }) h.writes.passage

/-- Without the fragment of the value no code is written yet. -/
theorem performs_pop (h : Valued s ids code σ s₁) :
    Performs s ids [] σ { s₁ with buffers := s.buffers } := by
  have hpop : Writes { s with registers := s.registers.reset } ids [] 0
      { s₁ with buffers := s.buffers } := ⟨h.writes.passage.pop, h.writes.fragment⟩
  exact ⟨hpop.of_reset, h.spot⟩

end Valued

/-- The end of a statement with a value: its code is placed, and one instruction follows. -/
theorem Performs.reaches_place {first : List Instr} (h : Performs s ids first σ s₁)
    (hb : s.buffers.stack ≠ []) (code : List Instr) (i : Instr) :
    (do
      Lower.splice (instrs code).toArray
      Lower.emit i : Lower Unit).Reaches s₁ (Performs s ids (first ++ code ++ [i]) σ) :=
  .then (h.then_splice hb code) fun _ h₂ => h₂.then_emit hb i

/-- The exit of an assignment declares its variable if it is new, computes the value and assigns it. -/
theorem reaches_exitAssign {name : Name} {op : AssignOp} {value : Expr} {v : Value}
    (hb : s.buffers.stack ≠ []) (hs : s.scopes.stack ≠ []) (h : Valued s ids code σ s₁)
    (hv : s₁.value value.id = some v) :
    (Lower.exit (Assignment.assign id name op value).node).Reaches s₁ fun s' =>
      Performs s ids
        ((if op.text = "=" then σ.declaration name.text [.construct (.name name.text) v.cls] else []) ++
          code ++ [if op.text = "**=" then .assignPower name.text v
            else .assign name.text op.text v])
        (if op.text = "=" then σ.declare name.text else σ) s' ∧
      (s'.errors = #[] → op.text = "=" ∨ σ.names.contains name.text = true) := by
  have hpop := h.performs_pop
  have hs₁ := hpop.writes.scopes_ne hs
  refine .bind h.run_popBuffer ?_
  refine .bind (Lower.run_child (i := 0) rfl name.node_ne_absent _) ?_
  refine .bind (Lower.run_operator (i := 1) rfl rfl op.node_ne_absent _) ?_
  refine .bind (Lower.run_child (i := 2) rfl value.node_ne_absent _) ?_
  refine .bind (Lower.run_valueOf (v := v) (by rw [Expr.node_id]; exact hv)) ?_
  rw [Leaf.text_node, Leaf.text_node]
  by_cases hop : op.text = "="
  · refine .of_pos hop ?_
    rw [if_pos hop, if_pos hop]
    refine .then (hpop.then_declare hb hs name.text v.cls) fun s₂ h₂ => ?_
    exact (h₂.reaches_place hb code _).mono fun s₃ h₃ => ⟨h₃, fun _ => .inl hop⟩
  · refine .of_neg hop ?_
    rw [if_neg hop, if_neg hop]
    obtain ⟨scope, scopes, hscope⟩ := List.exists_cons_of_ne_nil hs₁
    have hknown : scope.declared name.text = σ.names.contains name.text := by
      rw [← hpop.spot, Lowering.spot, Lowering.names, hscope]
      rfl
    refine .bind (Lower.run_topScope hscope) ?_
    rw [hknown]
    cases hdeclared : σ.names.contains name.text with
    | true => exact (hpop.reaches_place hb code _).mono fun s₃ h₃ => ⟨h₃, fun _ => .inr rfl⟩
    | false =>
      -- the report is the one thing that tells this case from the other
      refine .bind (Lower.run_report _ _ _) ?_
      have hreported := hpop.report (Assignment.assign id name op value).node.line
        (.undefinedVariable name.text)
      obtain ⟨s₃, hrun, h₃⟩ := hreported.reaches_place hb code (if op.text = "**=" then
        .assignPower name.text v else .assign name.text op.text v)
      refine ⟨s₃, hrun, h₃, fun hclean => ?_⟩
      have hbefore := Lower.Keeps.rel (R := Clean) hrun hclean
      simp [ErrorList.add] at hbefore

/-- The exit of an assignment to an element stores the value in its place. -/
theorem reaches_exitIndexAssign {parts : ElementParts} {index value : Expr} {op : EqualsSign}
    {target v : Value} (hb : s.buffers.stack ≠ []) (h : Valued s ids code σ s₁)
    (htarget : s₁.value parts.id = some target) (hv : s₁.value value.id = some v) :
    (Lower.exit (Assignment.store id parts index op value).node).Reaches s₁
      (Performs s ids (code ++ [.store target v]) σ) := by
  refine .bind h.run_popBuffer ?_
  refine .bind (Lower.run_child (i := 0) rfl (Expr.element parts index).node_ne_absent _) ?_
  refine .bind (Lower.run_valueOf (v := target) htarget) ?_
  refine .bind (Lower.run_child (i := 2) rfl value.node_ne_absent _) ?_
  refine .bind (Lower.run_valueOf (v := v) (by rw [Expr.node_id]; exact hv)) ?_
  exact h.performs_pop.reaches_place hb code (.store target v)

/-- The exit of an assignment to a global stores the value under its name. -/
theorem reaches_exitGlobalSet {global : Global} {value : Expr} {op : EqualsSign} {v : Value}
    (hb : s.buffers.stack ≠ []) (h : Valued s ids code σ s₁) (hv : s₁.value value.id = some v) :
    (Lower.exit (Simple.globalSet id global op value).node).Reaches s₁
      (Performs s ids (code ++ [.setGlobal (Lower.globalName global.node) v]) σ) := by
  refine .bind h.run_popBuffer ?_
  refine .bind (Lower.run_child (i := 2) rfl value.node_ne_absent _) ?_
  refine .bind (Lower.run_valueOf (v := v) (by rw [Expr.node_id]; exact hv)) ?_
  exact h.performs_pop.reaches_place hb code (.setGlobal (Lower.globalName global.node) v)

/-- The exit of an empty array declares the variable if it is new and constructs the array. -/
theorem reaches_exitArrayInit (hb : s.buffers.stack ≠ []) (hs : s.scopes.stack ≠ []) (name : Name)
    (op : EqualsSign) :
    (Lower.exit (Assignment.arrayInit id name op).node).Reaches s
      (Performs s [] ((Assignment.arrayInit id name op).code s.spot)
        ((Assignment.arrayInit id name op).after s.spot)) := by
  refine .bind (Lower.run_child (i := 0) rfl name.node_ne_absent s) ?_
  rw [Leaf.text_node]
  obtain ⟨s₁, hrun, h₁⟩ := (Performs.refl s).then_declareName hs name.text
  refine .bind hrun ?_
  rw [Assignment.code, Spot.declaration]
  cases s.spot.names.contains name.text with
  | true => exact h₁.then_emit hb (.construct (.name name.text) .array)
  | false =>
    refine .then (h₁.then_emit hb (.declare name.text)) fun s₂ h₂ => ?_
    exact h₂.then_emit hb (.construct (.name name.text) .array)

/-- The exit of a global that is read declares the variable if it is new and loads the global. -/
theorem reaches_exitGlobalGet (hb : s.buffers.stack ≠ []) (hs : s.scopes.stack ≠ []) (name : Name)
    (op : EqualsSign) (global : Global) :
    (Lower.exit (Assignment.globalGet id name op global).node).Reaches s
      (Performs s [] ((Assignment.globalGet id name op global).code s.spot)
        ((Assignment.globalGet id name op global).after s.spot)) := by
  refine .bind (Lower.run_child (i := 0) rfl name.node_ne_absent s) ?_
  rw [Leaf.text_node]
  refine .then ((Performs.refl s).then_declare hb hs name.text .integer) fun s₁ h₁ => ?_
  refine .bind (Lower.run_child (i := 2) rfl global.node_ne_absent s₁) ?_
  exact h₁.then_emit hb (.loadGlobal name.text (Lower.globalName global.node))

/-- The children of a statement with a value are its tokens and the value. -/
theorem valued_of_computes {e : Expr} {r : Lowered Value}
    (h : Computes { s with registers := s.registers.reset, buffers := s.buffers.push } e.node.ids e.id
      r s₁) (hsub : e.node.ids ⊆ ids) : Valued s ids r.code (s.spot.spend r.supply) s₁ :=
  ⟨⟨h.passage.mono hsub, h.fragment⟩, h.spot⟩

/-- To visit an assignment performs its code. -/
theorem visits_assignment (a : Assignment) (hindexed : a.Indexed) (hready : Ready a.node.ids s)
    (hcall : s.stmtCall = -1) :
    ∃ s', Visits a.node s s' ∧ Performs s a.node.ids (a.code s.spot) (a.after s.spot) s' ∧
      (s'.errors = #[] → a.Defined s.spot) := by
  have hfits : Fits a.node s := .simple (x := .assignment a) hindexed hready hcall
  -- by the form of the assignment: in each the values are visited first, then the node is left
  cases a with
  | assign id name op value =>
    have hvalue : Ready value.node.ids s := hready.children.mem (by simp)
    obtain ⟨s₁, hvisits, hcomputes⟩ :=
      visits_expr value hindexed (hvalue.reset s.registers.reset).push
    have hvalued : Valued s (Assignment.assign id name op value).node.ids _ _ s₁ :=
      valued_of_computes hcomputes fun i hi =>
        List.mem_cons_of_mem _ ((Node.ids_sublist_idsAll (by simp)).subset hi)
    obtain ⟨s₂, hexit, hperforms, hdefined⟩ :=
      reaches_exitAssign hready.buffers hready.scopes hvalued hcomputes.value
    exact ⟨s₂, .mk' hfits rfl (.cons (.leaf _ _) (.cons (.leaf _ _) (.cons hvisits (.nil s₁)))) hexit,
      hperforms, hdefined⟩
  | arrayInit id name op =>
    obtain ⟨s₁, hexit, hperforms⟩ := reaches_exitArrayInit hready.buffers hready.scopes name op
    exact ⟨s₁, .mk' hfits rfl (.cons (.leaf _ s) (.cons (.leaf _ s) (.nil s))) hexit,
      hperforms.mono (by simp), fun _ => trivial⟩
  | store id target index op value =>
    have htarget : Ready (Expr.element target index).node.ids s := hready.children.mem (by simp)
    have hvalue : Ready value.node.ids s := hready.children.mem (by simp)
    obtain ⟨s₁, hvisits₁, hcomputes₁⟩ :=
      visits_expr (.element target index) hindexed.1 (htarget.reset s.registers.reset).push
    have hvalue₁ := (hvalue.reset s.registers.reset).push.passage hcomputes₁.passage
      fun i _ => by rw [hcomputes₁.fragment]
    obtain ⟨s₂, hvisits₂, hcomputes₂⟩ := visits_expr value hindexed.2 hvalue₁
    rw [hcomputes₁.supply] at hcomputes₂
    have hvalued : Valued s (Assignment.store id target index op value).node.ids
        (((Expr.element target index).assigned s.spot).code ++
          (value.lowered ((Expr.element target index).assigned s.spot).supply).code)
        (s.spot.spend (value.lowered ((Expr.element target index).assigned s.spot).supply).supply)
        s₂ := by
      have hpassage := hcomputes₁.passage.trans hcomputes₂.passage
      rw [← List.map_append] at hpassage
      refine ⟨⟨hpassage.mono ?_, hcomputes₂.fragment.trans hcomputes₁.fragment⟩, ?_⟩
      · refine List.append_subset.mpr ⟨fun i hi => ?_, fun i hi => ?_⟩
        · exact List.mem_cons_of_mem _ ((Node.ids_sublist_idsAll (by simp)).subset hi)
        · exact List.mem_cons_of_mem _ ((Node.ids_sublist_idsAll (by simp)).subset hi)
      · rw [hcomputes₂.spot, hcomputes₁.spot]
        rfl
    -- the value leaves the place it is stored at alone
    have hplace : s₂.value target.id = some ((Expr.element target index).assigned s.spot).result := by
      refine (hcomputes₂.passage.value _ ?_).trans hcomputes₁.value
      intro hmem
      have hnodup := hready.children.nodup
      rw [Node.idsAll, List.nodup_append] at hnodup
      refine hnodup.2.2 _ (Expr.element target index).id_mem_ids _ ?_ rfl
      exact (Node.ids_sublist_idsAll (by simp)).subset hmem
    obtain ⟨s₃, hexit, hperforms⟩ :=
      reaches_exitIndexAssign hready.buffers hvalued hplace hcomputes₂.value
    exact ⟨s₃, .mk' hfits rfl (.cons hvisits₁ (.cons (.leaf _ s₁) (.cons hvisits₂ (.nil s₂)))) hexit,
      hperforms, fun _ => trivial⟩
  | globalGet id name op global =>
    obtain ⟨s₁, hexit, hperforms⟩ := reaches_exitGlobalGet hready.buffers hready.scopes name op global
    exact ⟨s₁, .mk' hfits rfl
      (.cons (.leaf _ s) (.cons (.leaf _ s) (.cons (.leaf _ s) (.nil s)))) hexit,
      hperforms.mono (by simp), fun _ => trivial⟩

end Assignments

/-! ## Other simple statements

A call whose result is not used is emitted by its statement and not by the call; the exit of the call
is told so by the state. -/

section Others

variable {s : Lowering} {id : Int}

/-- The name of a library is noted, and nothing is written. -/
theorem reaches_exitRequire (tag : Tag) (library : Library) (s : Lowering) :
    (Lower.exit (Simple.require tag library).node).Reaches s (Performs s [] [] s.spot) := by
  refine .bind (Lower.run_child (i := 0) rfl library.node_ne_absent s) ?_
  have hliteral : literal library.node.token = .ok library.value := library.literal_eq
  rw [hliteral]
  have hnoted : ∀ name, Performs s [] [] s.spot
      (if s.requires.contains name then s else { s with requires := s.requires.push name }) := by
    intro name
    split
    · exact .refl s
    · exact ⟨⟨⟨(Passage.refl s).buffers, (Passage.refl s).scopes, rfl, rfl, rfl, rfl,
        fun _ _ => rfl⟩, rfl⟩, rfl⟩
  exact ⟨_, rfl, hnoted _⟩

/-- Lines of target code are added one after the other. -/
theorem Performs.then_raw {s₁ : Lowering} {ids : List Int} {code : List Instr} {σ : Spot}
    (h : Performs s ids code σ s₁) (hb : s.buffers.stack ≠ []) (lines : List String) :
    (lines.forM fun line => Lower.emit (.raw line)).Reaches s₁
      (Performs s ids (code ++ lines.map .raw) σ) := by
  induction lines generalizing code s₁ with
  | nil =>
    refine ⟨s₁, rfl, ?_⟩
    rw [List.map_nil, List.append_nil]
    exact h
  | cons line lines ih =>
    refine .then (h.then_emit hb (.raw line)) fun s₂ h₂ => ?_
    refine (ih h₂).mono fun s₃ h₃ => ?_
    rw [List.append_assoc] at h₃
    exact h₃

/-- The exit of inline code emits its lines. -/
theorem reaches_exitInlinePir (hb : s.buffers.stack ≠ []) (id : Int) (code : TargetCode) :
    (Lower.exit (Simple.target id code).node).Reaches { s with buffers := s.buffers.push }
      (Performs s [] ((Simple.target id code).code s.spot) s.spot) := by
  refine .bind (Lower.run_child (i := 0) rfl code.node_ne_absent _) ?_
  have hpushed := Performs.refl { s with buffers := s.buffers.push }
  refine .then (hpushed.then_raw (List.cons_ne_nil _ _) _) fun s₁ h₁ => ?_
  refine .bind (run_popBuffer_of_passage h₁.writes.passage) ?_
  have hpop : Performs s [] [] s.spot { s₁ with buffers := s.buffers } :=
    ⟨⟨h₁.writes.passage.pop, h₁.writes.fragment⟩, h₁.spot⟩
  exact hpop.then_splice hb _

/-- The state in which the call of a statement is entered. -/
def Lowering.calling (s : Lowering) (call : Int) : Lowering :=
  { s with registers := s.registers.reset, stmtCall := call }

/-- The call of a statement is none of its own arguments, so these can be entered. -/
theorem Ready.calling {parts : CallParts} {args : Args}
    (h : Ready (Expr.call parts args).node.ids s) :
    Ready (Node.mk parts.args.id .args parts.args.token args.nodes).ids (s.calling parts.id) := by
  have hargs : Ready (Node.mk parts.args.id .args parts.args.token args.nodes).ids s :=
    h.children.mem (by simp)
  have hnodup := h.nodup
  rw [Expr.node, Node.ids, List.nodup_cons] at hnodup
  refine ⟨hargs.buffers, hargs.scopes, hargs.nodup, hargs.fragment, fun hmem => hnodup.1 ?_⟩
  exact (Node.ids_sublist_idsAll (by simp)).subset hmem

/-- A call whose result is not used: its arguments are placed, and no register is taken. -/
theorem visits_unused (id : Int) {parts : CallParts} {args : Args} (hindexed : args.Indexed)
    (hready : Ready (Expr.call parts args).node.ids s) :
    ∃ s', Visits (Expr.call parts args).node (s.calling parts.id) s' ∧
      Performs (s.calling parts.id) (Expr.call parts args).node.ids
        ((Simple.call id parts args).code s.spot) ((Simple.call id parts args).after s.spot) s' := by
  have hargs := hready.calling
  obtain ⟨s₁, hvisits, hkept⟩ := visits_argsNode parts.args args hindexed hargs
  obtain ⟨top, below, htop⟩ := List.exists_cons_of_ne_nil hargs.buffers
  have hcall : parts.id = s₁.stmtCall := hkept.passage.stmtCall.symm
  let r := args.lowered (s.calling parts.id).supply
  -- the arguments are placed, and the call behind them has no result
  have hplaced : Performs (s.calling parts.id)
      (Node.mk parts.args.id .args parts.args.token args.nodes).ids r.code
      ((Simple.call id parts args).after s.spot) (s₁.placed top below parts r.code) := by
    refine ⟨⟨hkept.passage_placed htop, ?_⟩, ?_⟩
    · exact hkept.fragment_placed (hargs.fragment _ List.mem_cons_self)
    · show s₁.spot = _
      unfold Lowering.spot
      rw [hkept.supply, hkept.names]
      rfl
  have hexit := reaches_exitCall_of_placed hkept htop (.of_pos hcall
    (hplaced.then_emit hargs.buffers (.call none parts.callee.text r.result)))
  obtain ⟨s₂, hexit, hperforms⟩ := hexit
  refine ⟨s₂, .mk' (.unused rfl) rfl (.cons (.leaf _ _) (.cons hvisits (.nil s₁))) hexit,
    hperforms.mono fun i hi => ?_⟩
  exact List.mem_cons_of_mem _ ((Node.ids_sublist_idsAll (by simp)).subset hi)

/-- Walking a simple statement writes its instructions and leads to the spot behind it. If there is no
error then, all that it changes is declared. -/
theorem visits_simple (x : Simple) (hindexed : x.Indexed) (hready : Ready x.node.ids s)
    (hcall : s.stmtCall = -1) :
    ∃ s', Visits x.node s s' ∧ Performs s x.node.ids (x.code s.spot) (x.after s.spot) s' ∧
      (s'.errors = #[] → x.Defined s.spot) := by
  have hfits : Fits x.node s := .simple hindexed hready hcall
  -- one case for each statement: its children are walked, and its exit is known
  cases x with
  | assignment a => exact visits_assignment a hindexed hready hcall
  | globalSet id global op value =>
    have hvalue : Ready value.node.ids s := hready.children.mem (by simp)
    obtain ⟨s₁, hvisits, hcomputes⟩ :=
      visits_expr value hindexed (hvalue.reset s.registers.reset).push
    have hvalued : Valued s (Simple.globalSet id global op value).node.ids _ _ s₁ :=
      valued_of_computes hcomputes fun i hi =>
        List.mem_cons_of_mem _ ((Node.ids_sublist_idsAll (by simp)).subset hi)
    obtain ⟨s₂, hexit, hperforms⟩ := reaches_exitGlobalSet hready.buffers hvalued hcomputes.value
    exact ⟨s₂, .mk' hfits rfl (.cons (.leaf _ _) (.cons (.leaf _ _) (.cons hvisits (.nil s₁)))) hexit,
      hperforms, fun _ => trivial⟩
  | require tag library =>
    obtain ⟨s₁, hexit, hperforms⟩ := reaches_exitRequire tag library s
    exact ⟨s₁, .mk' hfits rfl (.cons (.leaf _ s) (.nil s)) hexit, hperforms.mono (by simp),
      fun _ => trivial⟩
  | target id code =>
    obtain ⟨s₁, hexit, hperforms⟩ := reaches_exitInlinePir hready.buffers id code
    exact ⟨s₁, .mk' hfits rfl (.cons (.leaf _ _) (.nil _)) hexit, hperforms.mono (by simp),
      fun _ => trivial⟩
  | call id parts args =>
    have hcallee : Ready (Expr.call parts args).node.ids s := hready.children.mem (by simp)
    obtain ⟨s₁, hvisits, hperforms⟩ := visits_unused id hindexed hcallee
    have henter : (Lower.enter (Simple.call id parts args).node).run s =
        .ok ((), s.calling parts.id) := rfl
    have hwrites := hperforms.writes
    -- the exit of the statement takes back the mark that its entry has set
    refine ⟨{ s₁ with stmtCall := -1 }, .mk' hfits henter (.cons hvisits (.nil s₁)) rfl,
      ⟨⟨⟨hwrites.passage.buffers, hwrites.passage.scopes, hwrites.passage.frames,
        hwrites.passage.loops, hwrites.passage.next, hcall.symm, ?_⟩, hwrites.fragment⟩,
        hperforms.spot⟩, fun _ => trivial⟩
    intro i hi
    refine hwrites.passage.value i fun hmem => hi ?_
    exact List.mem_cons_of_mem _ ((Node.ids_sublist_idsAll (by simp)).subset hmem)

end Others

end ScriptPir

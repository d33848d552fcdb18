import ScriptPir.Proofs.Evaluation
import ScriptPir.Proofs.Labelling
import ScriptPir.Proofs.Placement

/-!
# Which registers code writes

The code of an expression writes only registers that were free before it (`Confined`), and if a register
stands in its value, the last instruction of the code has written it (`Delivers`). Truth registers are
taken one after the other through a whole subroutine:

* `nodup_boolsOf_subs` — no truth register is written twice in a subroutine, although the step of a loop
  is laid out behind the body and taken before it;
* `successive_of_run` — an object register is taken once until a walk starts again from the first one.
* `Spends` — some truth registers are taken one after the other between two spots;
* `perm_bools` — the truth registers of a statement's lines are those it takes, in some order;
* `confined_lowered` — what an expression writes was free before.
-/

namespace ScriptPir

/-! ## Registers of instructions

What an instruction reads and writes is listed here once, by kind of instruction. Raw code of the
target is not known to do anything; it is kept apart from what the compiler emits. -/

/-- The registers that are read for a place. -/
def Ref.regs : Ref → List Reg
  | .reg r => [r]
  | .elementBy _ index => index.regs
  | .name _ | .elementAt .. => []

/-- The registers that are read for an operand. -/
def Value.regs : Value → List Reg
  | .dynamic place => place.regs
  | .int _ | .float _ | .str _ => []

/-- There are no registers in a constant. -/
theorem Value.regs_of_isStatic {v : Value} (h : v.isStatic = true) : v.regs = [] := by
  cases v with
  | int | float | str => rfl
  | dynamic => cases h

namespace Instr

/-- The operands of an instruction that are values of expressions. -/
def operands : Instr → List Value
  | .assign _ _ v | .assignPower _ v | .setGlobal _ v | .neg _ v | .not _ v | .branch _ v _ => [v]
  | .store a b | .arith _ _ a b | .power _ a b | .test _ _ a b => [a, b]
  | .call _ _ args => args.map (·.value)
  | .ret v => v.toList
  | .declare _ | .param _ | .construct .. | .loadGlobal .. | .getGlobal .. | .jump _ | .raw _ => []

/-- The register that an instruction writes. -/
def written? : Instr → Option Reg
  | .construct (.reg r) _ | .getGlobal r _ | .neg r _ | .not r _ | .arith r .. | .power r ..
  | .test r .. | .call (some r) .. => some r
  | _ => none

/-- Whether an instruction is target code given in the source, of which nothing is known. -/
def isRaw : Instr → Bool
  | .raw _ => true
  | _ => false

/-- An instruction that is no jump and leaves a register alone. -/
structure Spares (r : Reg) (i : Instr) : Prop where
  control : i.isControl = false
  raw : i.isRaw = false
  written : i.written? ≠ some r

/-- An instruction that writes one register spares all others. -/
theorem spares_of_written {i : Instr} {r r' : Reg} (hcontrol : i.isControl = false)
    (hwritten : i.written? = some r') (hne : r' ≠ r) : i.Spares r := by
  refine ⟨hcontrol, ?_, ?_⟩
  · cases i with
    | raw => cases hwritten
    | _ => rfl
  · rw [hwritten]
    exact fun h => hne (Option.some.inj h)

end Instr

/-- The truth register that a line writes. -/
def Line.bool? : Line → Option Nat
  | .instr i =>
    match i.written? with
    | some (.boolean n) => some n
    | _ => none
  | .label _ => none

/-- The truth registers that some lines write. -/
def boolsOf (lines : List Line) : List Nat := lines.filterMap Line.bool?

/-- Two parts write the truth registers of the first and those of the second. -/
@[simp] theorem boolsOf_append (xs ys : List Line) : boolsOf (xs ++ ys) = boolsOf xs ++ boolsOf ys :=
  List.filterMap_append

@[simp] theorem boolsOf_cons (line : Line) (lines : List Line) :
    boolsOf (line :: lines) = line.bool?.toList ++ boolsOf lines := by
  cases h : line.bool? <;> simp [boolsOf, h]

@[simp] theorem boolsOf_nil : boolsOf [] = [] := rfl

/-- The lines of two parts of some code stand one behind the other. -/
@[simp] theorem instrs_append (code code' : List Instr) :
    instrs (code ++ code') = instrs code ++ instrs code' := List.map_append

@[simp] theorem instrs_nil : instrs [] = [] := rfl

@[simp] theorem instrs_cons (i : Instr) (code : List Instr) :
    instrs (i :: code) = .instr i :: instrs code := rfl

/-- Code that writes no register writes no truth register. -/
theorem boolsOf_instrs_eq_nil {code : List Instr} (h : ∀ i ∈ code, i.written? = none) :
    boolsOf (instrs code) = [] := by
  refine List.filterMap_eq_nil_iff.mpr fun line hline => ?_
  obtain ⟨i, hi, rfl⟩ := List.mem_map.mp hline
  rw [Line.bool?, h i hi]

/-- An instruction that writes no register adds no truth register. -/
theorem boolsOf_instrs_snoc (code : List Instr) {i : Instr} (h : i.written? = none) :
    boolsOf (instrs (code ++ [i])) = boolsOf (instrs code) := by
  have hlast : boolsOf (instrs [i]) = [] := boolsOf_instrs_eq_nil (by simpa using h)
  rw [instrs_append, boolsOf_append, hlast, List.append_nil]

namespace Shape

/-! ## Code that writes free registers only

A supply separates the registers that are taken from those that are free. Code that moves the
boundary up, and writes above it only, leaves alone whatever was computed before; this is what makes
nested expressions safe. -/

/-- Some lines write the truth registers from one supply to another, in their order. -/
def Spends (s s' : Supply) (bools : List Nat) : Prop :=
  ∃ n, s'.bools = s.bools + n ∧ bools = List.range' s.bools n

theorem Spends.refl (s : Supply) : Spends s s [] := ⟨0, rfl, rfl⟩

/-- What two parts spend, they spend in order. -/
theorem Spends.trans {s s₁ s₂ : Supply} {xs ys : List Nat} (h : Spends s s₁ xs)
    (h' : Spends s₁ s₂ ys) : Spends s s₂ (xs ++ ys) := by
  obtain ⟨n, hn, rfl⟩ := h
  obtain ⟨m, hm, rfl⟩ := h'
  refine ⟨n + m, by omega, ?_⟩
  rw [hn]
  exact List.range'_append_1

/-- Every instruction of some code writes a register that is free before it. -/
structure Confined {α : Type} (s : Supply) (x : Lowered α) : Prop where
  grows : ∀ r, s.Below r → x.supply.Below r
  writes : ∀ i ∈ x.code, ∃ r, i.written? = some r ∧ ¬s.Below r
  bools : Spends s x.supply (boolsOf (instrs x.code))

/-- A register that stands in a value is taken, and was written last. -/
structure Delivers (x : Lowered Value) : Prop where
  below : ∀ r ∈ x.result.regs, x.supply.Below r
  last : ∀ r ∈ x.result.regs, ∃ code i, x.code = code ++ [i] ∧ i.written? = some r

namespace Confined

variable {α β : Type} {s : Supply}

/-- Code that runs on to its end leaves alone what is taken before it. -/
theorem spares {x : Lowered α} (h : Confined s x) (hplain : Plain x.code) {r : Reg} (hr : s.Below r) :
    ∀ i ∈ x.code, i.Spares r := by
  intro i hi
  obtain ⟨r', hwritten, hfree⟩ := h.writes i hi
  exact Instr.spares_of_written (hplain i hi) hwritten fun heq => hfree (heq ▸ hr)

theorem done (a : α) (s : Supply) : Confined s (Lowered.done a s) :=
  ⟨fun _ h => h, by simp [Lowered.done], .refl s⟩

/-- Two parts write only what was free before the first, if the second starts where the first ends. -/
theorem andThen {x : Lowered α} {f : α → Supply → Lowered β} (h : Confined s x)
    (h' : Confined x.supply (f x.result x.supply)) : Confined s (x.andThen f) := by
  refine ⟨fun r hr => h'.grows r (h.grows r hr), fun i hi => ?_, ?_⟩
  · obtain hi | hi := List.mem_append.mp hi
    · exact h.writes i hi
    · obtain ⟨r, hr, hfree⟩ := h'.writes i hi
      exact ⟨r, hr, fun hbelow => hfree (h.grows r hbelow)⟩
  · show Spends s _ (boolsOf (instrs (x.code ++ _)))
    rw [instrs_append, boolsOf_append]
    exact h.bools.trans h'.bools

/-- Code that writes one new object register. -/
theorem inObject {code : Reg → List Instr}
    (h : ∀ i ∈ code (.object s.objects), i.written? = some (.object s.objects)) :
    Confined s (Lowered.inObject code s) := by
  refine ⟨fun r hr => ?_, fun i hi => ⟨_, h i hi, Nat.lt_irrefl _⟩, 0, rfl, ?_⟩
  · cases r with
    | object n => exact Nat.lt_succ_of_lt hr
    | boolean n => exact hr
  · refine List.filterMap_eq_nil_iff.mpr fun line hline => ?_
    obtain ⟨i, hi, rfl⟩ := List.mem_map.mp hline
    rw [Line.bool?, h i hi]

/-- An instruction that writes one new truth register. -/
theorem inBoolean {i : Reg → Instr} (h : ∀ r, (i r).written? = some r) :
    Confined s (Lowered.inBoolean (fun r => [i r]) s) := by
  refine ⟨fun r hr => ?_, ?_, 1, rfl, ?_⟩
  · cases r with
    | object n => exact hr
    | boolean n => exact Nat.lt_succ_of_lt hr
  · simp [Lowered.inBoolean, h, Supply.Below]
  · simp [Lowered.inBoolean, Line.bool?, h, List.range']

end Confined

namespace Delivers

theorem static {v : Value} (h : v.isStatic = true) (s : Supply) : Delivers (Lowered.done v s) := by
  have hregs : (Lowered.done v s).result.regs = [] := Value.regs_of_isStatic h
  refine ⟨?_, ?_⟩ <;> simp [hregs]

/-- A result in a new object register was written by the last instruction. -/
theorem inObject {code : Reg → List Instr} {s : Supply}
    (h : ∃ setup i, code (.object s.objects) = setup ++ [i] ∧
      i.written? = some (.object s.objects)) : Delivers (Lowered.inObject code s) := by
  refine ⟨fun r hr => ?_, fun r hr => ?_⟩
  · cases List.mem_singleton.mp hr
    exact Nat.lt_succ_self _
  · cases List.mem_singleton.mp hr
    exact h

/-- A result in a new truth register was written by its only instruction. -/
theorem inBoolean {i : Reg → Instr} {s : Supply} (h : ∀ r, (i r).written? = some r) :
    Delivers (Lowered.inBoolean (fun r => [i r]) s) := by
  refine ⟨fun r hr => ?_, fun r hr => ?_⟩
  · cases List.mem_singleton.mp hr
    exact Nat.lt_succ_self _
  · cases List.mem_singleton.mp hr
    exact ⟨[], _, rfl, h _⟩

/-- What the second of two parts delivers is delivered by both. -/
theorem andThen {α : Type} {x : Lowered α} {f : α → Supply → Lowered Value}
    (h : Delivers (f x.result x.supply)) : Delivers (x.andThen f) := by
  refine ⟨h.below, fun r hr => ?_⟩
  obtain ⟨code, i, hcode, hi⟩ := h.last r hr
  refine ⟨x.code ++ code, i, ?_, hi⟩
  show x.code ++ (f x.result x.supply).code = _
  rw [hcode, List.append_assoc]

end Delivers

/-! ## Operations

An operation is what a node adds to the code of its operands: nothing if it is folded, else a few
instructions, of which only the last one reads the operands. -/

/-- Code that is empty, or has one instruction at its end that reads some operands, behind others that
read none. -/
inductive Reads (operands : List Value) : List Instr → Prop where
  | nothing : Reads operands []
  | last (setup : List Instr) (i : Instr) (hsetup : ∀ j ∈ setup, j.operands = [])
      (hi : i.operands = operands) : Reads operands (setup ++ [i])

/-- What is known of the code that an operation adds to that of its operands. -/
structure Operates (operands : List Value) (s : Supply) (x : Lowered Value) : Prop where
  confined : Confined s x
  delivers : Delivers x
  reads : Reads operands x.code

theorem operates_static {operands : List Value} {v : Value} (h : v.isStatic = true) (s : Supply) :
    Operates operands s (Lowered.done v s) := ⟨.done v s, .static h s, .nothing⟩

/-- A new object is overwritten by the result of an instruction. -/
theorem operates_construct (i : Reg → Instr) {operands : List Value}
    (hwritten : ∀ r, (i r).written? = some r) (hreads : ∀ r, (i r).operands = operands) (s : Supply) :
    Operates operands s (Lowered.inObject (fun r => [.construct (.reg r) .integer, i r]) s) := by
  refine ⟨.inObject ?_, .inObject ⟨[_], _, rfl, hwritten _⟩, .last [_] _ ?_ (hreads _)⟩
  · exact List.forall_mem_cons.mpr ⟨rfl, List.forall_mem_singleton.mpr (hwritten _)⟩
  · exact List.forall_mem_singleton.mpr rfl

theorem operates_boolean (i : Reg → Instr) {operands : List Value}
    (hwritten : ∀ r, (i r).written? = some r) (hreads : ∀ r, (i r).operands = operands) (s : Supply) :
    Operates operands s (Lowered.inBoolean (fun r => [i r]) s) :=
  ⟨.inBoolean hwritten, .inBoolean hwritten, .last [] _ (by simp) (hreads _)⟩

/-- A sign is an operation on its operand. -/
theorem operates_signed (sign : String) (v : Value) (s : Supply) :
    Operates [v] s (signed sign v s) := by
  unfold signed negated
  split
  · cases hfold : foldNeg v with
    | ok w => exact operates_static (isStatic_foldNeg hfold) s
    | error e => exact operates_construct (.neg · v) (fun _ => rfl) (fun _ => rfl) s
  · exact operates_boolean (.not · v) (fun _ => rfl) (fun _ => rfl) s

/-- A binary operator is an operation on both sides. -/
theorem operates_operated (op : BinaryOp) (l r : Value) (s : Supply) :
    Operates [l, r] s (operated op l r s) := by
  unfold operated
  -- comparison and logic are tests; arithmetic is folded, or computed into an object
  cases BoolOp.ofText? op.text with
  | some test =>
    exact operates_boolean (.test · test l r) (fun _ => rfl) (fun _ => rfl) s
  | none =>
    show Operates [l, r] s (computed op.text l r s)
    unfold computed
    cases hfold : fold op.text l r with
    | ok w => exact operates_static (isStatic_fold hfold) s
    | error e =>
      refine operates_construct (fun reg => if op.text = "**" then .power reg l r else _)
        (fun reg => ?_) (fun reg => ?_) s <;> split <;> rfl

theorem operates_call (callee : String) (as : List Argument) (s : Supply) :
    Operates (as.map (·.value)) s (Lowered.inObject (fun r => [.call (some r) callee as]) s) := by
  refine ⟨.inObject ?_, .inObject ⟨[], _, rfl, rfl⟩, .last [] _ (by simp) rfl⟩
  simp [Instr.written?]

/-- In the place of an element stand the registers of its index. -/
theorem regs_elementOf (array : String) (v : Value) : (elementOf array v).regs = v.regs := by
  cases v <;> rfl

/-! ## Expressions

By recursion on the expression, with the supply general: operands are lowered one after the other,
each from the supply that the one before it leaves. -/

mutual

/-- The code of an expression writes only registers that were free before it. -/
theorem confined_lowered (e : Expr) (s : Supply) : Confined s (e.lowered s) := by
  -- operands first, then the instruction of the node itself
  cases e with
  | constant | var => exact .done _ s
  | global => exact .inObject (by simp [Instr.written?])
  | paren _ _ inner _ => exact confined_lowered inner s
  | unary _ sign operand =>
    exact (confined_lowered operand s).andThen (operates_signed sign.text _ _).confined
  | operation _ left op right =>
    rw [Expr.lowered]
    refine (confined_lowered left s).andThen ?_
    exact (confined_lowered right _).andThen (operates_operated op _ _ _).confined
  | element parts index =>
    rw [Expr.lowered]
    exact (confined_lowered index s).andThen (.done _ _)
  | call parts args =>
    rw [Expr.lowered]
    exact (confined_loweredArgs args s).andThen (operates_call _ _ _).confined

/-- The code of arguments writes only registers that were free before it. -/
theorem confined_loweredArgs (a : Args) (s : Supply) : Confined s (a.lowered s) := by
  cases a with
  | nil => exact .done _ s
  | cons _ name value rest =>
    rw [Args.lowered]
    refine (confined_lowered value s).andThen ?_
    exact (confined_loweredArgs rest _).andThen (.done _ _)

end

/-- If a register stands in the value of an expression, the last instruction has written it. -/
theorem delivers_lowered (e : Expr) (s : Supply) : Delivers (e.lowered s) := by
  match e with
  | .constant _ leaf => exact .static leaf.isStatic s
  | .var _ name =>
    refine ⟨?_, ?_⟩ <;> simp [Expr.lowered, Lowered.done, Value.regs, Ref.regs]
  | .global .. => exact .inObject ⟨[], _, rfl, rfl⟩
  | .paren _ _ inner _ => exact delivers_lowered inner s
  | .unary _ sign operand => exact .andThen (operates_signed sign.text _ _).delivers
  | .operation _ left op right =>
    rw [Expr.lowered]
    refine .andThen ?_
    exact .andThen (operates_operated op _ _ _).delivers
  | .element parts index =>
    -- an element is read through the registers of its index
    have hindex := delivers_lowered index s
    have hregs : ((Expr.element parts index).lowered s).result.regs = (index.lowered s).result.regs :=
      regs_elementOf _ _
    have hcode : ((Expr.element parts index).lowered s).code = (index.lowered s).code :=
      List.append_nil _
    refine ⟨?_, ?_⟩
    · rw [hregs]
      exact hindex.below
    · rw [hregs, hcode]
      exact hindex.last
  | .call parts args =>
    rw [Expr.lowered]
    exact .andThen (operates_call _ _ _).delivers

/-! ## Truth registers of subroutines

Truth registers are counted through a subroutine and never start again, so a leg spends a stretch of
their numbers. Lines place the stretches in another order, which does not matter for their being
different. -/

/-- An expression spends truth registers in order. -/
theorem spends_lowered (e : Expr) {s s' : Supply} (hsame : s'.bools = s.bools) :
    Spends s (e.lowered s').supply (boolsOf (instrs (e.lowered s').code)) := by
  obtain ⟨n, hn⟩ := (confined_lowered e s').bools
  rw [hsame] at hn
  exact ⟨n, hn⟩

/-- A declaration writes no truth register. -/
theorem boolsOf_declaration (σ : Spot) (x : String) {construct : List Instr}
    (h : ∀ i ∈ construct, i.written? = none) :
    boolsOf (instrs (σ.declaration x construct)) = [] := by
  refine boolsOf_instrs_eq_nil fun i hi => ?_
  unfold Spot.declaration at hi
  split at hi
  · cases hi
  · obtain rfl | hi := List.mem_cons.mp hi
    · rfl
    · exact h i hi

theorem Spot.bools_declare (σ : Spot) (x : String) : (σ.declare x).bools = σ.bools := by
  unfold Spot.declare
  split <;> rfl

theorem Spends.declare {s : Supply} {σ : Spot} {bools : List Nat} (x : String)
    (h : Spends s σ.toSupply bools) : Spends s (σ.declare x).toSupply bools := by
  obtain ⟨n, hn, hbools⟩ := h
  exact ⟨n, (σ.bools_declare x).trans hn, hbools⟩

/-- An assignment spends truth registers in order. -/
theorem spends_assignment (a : Assignment) (σ : Spot) :
    Spends σ.toSupply (a.after σ).toSupply (boolsOf (instrs (a.code σ))) := by
  -- the value spends registers, and what is stored afterwards spends none
  cases a with
  | assign id name op value =>
    have hvalue : Spends σ.toSupply (σ.spend (value.assigned σ).supply).toSupply
        (boolsOf (instrs (value.assigned σ).code)) := spends_lowered value rfl
    have hcode : boolsOf (instrs ((Assignment.assign id name op value).code σ)) =
        boolsOf (instrs (value.assigned σ).code) := by
      rw [Assignment.code, boolsOf_instrs_snoc _ (by split <;> rfl), instrs_append, boolsOf_append]
      split
      · rw [boolsOf_declaration σ _ (by simp [Instr.written?]), List.nil_append]
      · rfl
    rw [hcode, Assignment.after]
    split
    · exact hvalue.declare _
    · exact hvalue
  | arrayInit id name op =>
    rw [Assignment.code, boolsOf_instrs_snoc _ rfl, boolsOf_declaration σ _ (by simp)]
    exact (Spends.refl _).declare _
  | store id target index op value =>
    have hplace : Spends σ.toSupply ((Expr.element target index).assigned σ).supply _ :=
      spends_lowered (.element target index) rfl
    rw [Assignment.code, boolsOf_instrs_snoc _ rfl, instrs_append, boolsOf_append]
    exact hplace.trans (spends_lowered value rfl)
  | globalGet id name op global =>
    rw [Assignment.code, boolsOf_instrs_snoc _ rfl, boolsOf_declaration σ _ (by simp [Instr.written?])]
    exact (Spends.refl _).declare _

/-- A simple statement spends truth registers in order. -/
theorem spends_simple (x : Simple) (σ : Spot) :
    Spends σ.toSupply (x.after σ).toSupply (boolsOf (instrs (x.code σ))) := by
  cases x with
  | assignment a => exact spends_assignment a σ
  | globalSet id global op value =>
    rw [Simple.code, boolsOf_instrs_snoc _ rfl]
    exact spends_lowered value rfl
  | require => exact .refl _
  | target id code =>
    -- lines of target code have no registers of the translation
    have hcode : boolsOf (instrs ((Simple.target id code).code σ)) = [] := by
      refine boolsOf_instrs_eq_nil fun i hi => ?_
      obtain ⟨line, -, rfl⟩ := List.mem_map.mp hi
      rfl
    rw [hcode]
    exact .refl _
  | call id parts args =>
    rw [Simple.code, boolsOf_instrs_snoc _ rfl]
    exact (confined_loweredArgs args σ.reset.toSupply).bools

/-- An emission has what the expression itself is lowered to, besides its parts. -/
theorem Expr.Emitted.at {E : Emission} {e : Expr} {s : Supply} (h : e.Emitted E s) :
    E.At e.id (e.lowered s) := by
  cases e with
  | constant | var | global => exact h
  | paren | unary | operation | element | call => exact h.1

/-- A leg spends truth registers in order. -/
theorem Leg.Emitted.spends {E : Emission} {x : Leg} {σ : Spot} (h : x.Emitted E σ) :
    Spends σ.toSupply (x.after σ).toSupply (boolsOf (instrs (E.code x.id))) := by
  cases x with
  | simple x =>
    show Spends _ _ (boolsOf (instrs (E.code x.node.id)))
    rw [h.1]
    exact spends_simple x σ
  | value e =>
    show Spends _ _ (boolsOf (instrs (E.code e.id)))
    rw [h.at.1]
    exact spends_lowered e rfl

/-- The truth registers of legs follow each other in the order of the walk. -/
theorem spends_legs {E : Emission} {legs : List Leg} {σ : Spot}
    (h : Along (Leg.Emitted E) legs σ) :
    Spends σ.toSupply (afterAll legs σ).toSupply
      (legs.flatMap fun x => boolsOf (instrs (E.code x.id))) := by
  induction legs generalizing σ with
  | nil => exact .refl _
  | cons x legs ih =>
    rw [List.flatMap_cons]
    exact h.1.spends.trans (ih h.2)

/-- The truth registers of some lines are those of the legs in them, in another order if a loop has a
header. -/
theorem perm_bools {E : Emission} {legs : List Leg} {lines : List Line} (h : Spread E legs lines) :
    (boolsOf lines).Perm (legs.flatMap fun x => boolsOf (instrs (E.code x.id))) := by
  refine h.perm_filterMap fun line hline => ?_
  cases line with
  | label => rfl
  | instr i =>
    cases i with
    | jump | branch | ret => rfl
    | _ => cases hline

end Shape

open Shape

section Subroutines

variable {E : Emission} {items : List Item}

/-- The main part writes the truth registers of one stretch, in some order. -/
theorem perm_bools_mainLines {σ : Spot} (h : AlongItems (Leg.Emitted E) items σ) (next : Nat) :
    ∃ n, (boolsOf (mainLines E items next)).Perm (List.range' σ.bools n) := by
  -- on the items: functions take registers of their own, statements go on where the last one ended
  induction items generalizing σ next with
  | nil => exact ⟨0, .refl _⟩
  | cons i items ih =>
    obtain ⟨m, hrest⟩ := ih h.2 (next + i.span)
    rw [mainLines, boolsOf_append]
    cases i with
    | function parts body => exact ⟨m, hrest⟩
    | stmt x =>
      obtain ⟨n, hn, hbools⟩ := spends_legs h.1
      have hfirst : (boolsOf ((Item.stmt x).lines E next)).Perm (List.range' σ.bools n) :=
        hbools ▸ perm_bools (x.spread E none next)
      have hafter : ((Item.stmt x).after σ).bools = σ.bools + n := hn
      rw [hafter] at hrest
      refine ⟨n + m, ?_⟩
      rw [← List.range'_append_1]
      exact hfirst.append hrest

/-- What holds along a program holds of each thing at its top, at some spot. -/
theorem exists_along_of_mem {P : Leg → Spot → Prop} {σ : Spot} (h : AlongItems P items σ) {i : Item}
    (hi : i ∈ items) : ∃ σ, i.Along P σ := by
  induction items generalizing σ with
  | nil => cases hi
  | cons j items ih =>
    obtain rfl | hi := List.mem_cons.mp hi
    · exact ⟨σ, h.1⟩
    · exact ih h.2 hi

/-- No truth register is written twice in a subroutine. -/
theorem nodup_boolsOf_subs (hlegs : AlongItems (Leg.Emitted E) items .start) {p : Program}
    (hmain : p.main = (mainLines E items 0).toArray)
    (hfunctions : ∀ r ∈ p.functions, LastDefined E items 0 r) :
    ∀ sub ∈ p.subs, (boolsOf sub).Nodup := by
  intro sub hsub
  obtain rfl | hsub := List.mem_cons.mp hsub
  · obtain ⟨n, hperm⟩ := perm_bools_mainLines hlegs 0
    rw [hmain]
    exact hperm.nodup_iff.mpr List.nodup_range'
  · obtain ⟨r, hr, rfl⟩ := List.mem_map.mp hsub
    obtain ⟨pre, parts, body, post, rfl, -, hcode⟩ := (hfunctions r hr).block
    obtain ⟨σ, hbody⟩ := exists_along_of_mem hlegs (i := .function parts body) (by simp)
    obtain ⟨n, -, hbools⟩ := spends_legs hbody
    -- the body starts in a fresh scope, so its registers are counted from there
    have hperm := perm_bools (body.spread E none (0 + mainSpan pre))
    have hparams : boolsOf (instrs (parts.params.map fun p => .param p.text)) = [] := by
      refine boolsOf_instrs_eq_nil fun i hi => ?_
      obtain ⟨p, -, rfl⟩ := List.mem_map.mp hi
      rfl
    rw [hcode, Item.block, FunctionParts.lines, boolsOf_append, hparams, List.nil_append,
      hperm.nodup_iff, hbools]
    exact List.nodup_range'

end Subroutines

/-! ## Object registers

Object registers start again where a statement is entered (`Event.resets`). In between, no step gives
one back, so of two steps the later one takes the larger register. -/

/-- Whether an event starts again from the first object register. -/
def Event.resets : Event → Bool
  | .enter n => n.kind.resets
  | .exit _ | .missing => false

/-- No object register is given back. -/
def Grows (s s' : Lowering) : Prop := s.registers.next ≤ s'.registers.next

instance : Looser Grows where
  refl _ := Nat.le_refl _
  trans h h' := Nat.le_trans h h'
  buffers _ _ := Nat.le_refl _
  fragments _ _ := Nat.le_refl _
  values _ _ := Nat.le_refl _
  labels _ _ _ := Nat.le_refl _
  registers _ := Nat.le_succ _
  scopes _ _ := Nat.le_refl _
  errors _ _ _ := Nat.le_refl _
  notices _ _ := Nat.le_refl _
  requires _ _ := Nat.le_refl _
  stmtCall _ _ := Nat.le_refl _
  program _ _ := Nat.le_refl _
  calls _ _ := Nat.le_refl _

set_option synthInstance.maxSize 512 in
/-- A step that does not start again gives no object register back. -/
theorem keeps_grows_step {event : Event} (h : event.resets = false) :
    Lower.Keeps Grows (Lower.step event) := by
  have (r : FunctionRecord Fragment) : Lower.Keeps Grows (Lower.storeFunction r) :=
    ⟨fun h => by cases h; exact Nat.le_refl _⟩
  cases event with
  | enter n =>
    refine Lower.keeps_enter fun hresets => ?_
    rw [show n.kind.resets = false from h] at hresets
    cases hresets
  | exit n => exact Lower.keeps_exit fun _ => inferInstance
  | missing => exact inferInstanceAs (Lower.Keeps Grows (throw _ : Lower Unit))

/-- Steps of which none starts again give no object register back. -/
theorem grows_of_run {events : List Event} (h : ∀ event ∈ events, event.resets = false)
    {s s' : Lowering} (hrun : (events.forM Lower.step).run s = .ok ((), s')) : Grows s s' := by
  induction events generalizing s with
  | nil =>
    cases hrun
    exact Nat.le_refl _
  | cons event events ih =>
    rw [Lower.forM_step_cons] at hrun
    obtain ⟨_, s₁, hstep, hrest⟩ := Lower.run_bind_eq_ok hrun
    have := keeps_grows_step (h event List.mem_cons_self)
    have hfirst : Grows s s₁ := Lower.Keeps.rel hstep
    exact Nat.le_trans hfirst (ih (fun e he => h e (List.mem_cons_of_mem _ he)) hrest)

/-- Of two events without a new start between them, the later one takes the larger object registers. -/
def Successive (events : List Event) (s : Lowering) : Prop :=
  ∀ before event between event' after,
    events = before ++ event :: (between ++ event' :: after) →
    (∀ e ∈ between, e.resets = false) →
    ∃ t t' u u', (before.forM Lower.step).run s = .ok ((), t) ∧
      (Lower.step event).run t = .ok ((), t') ∧ (between.forM Lower.step).run t' = .ok ((), u) ∧
      (Lower.step event').run u = .ok ((), u') ∧
      ∀ n n', Allocated t t' (.object n) → Allocated u u' (.object n') → n < n'

/-- In a walk that succeeds, object registers ascend until it starts again from the first. -/
theorem successive_of_run {events : List Event} {s s' : Lowering}
    (h : (events.forM Lower.step).run s = .ok ((), s')) : Successive events s := by
  rintro before event between event' after rfl hbetween
  obtain ⟨t, hbefore, hrest⟩ := run_forM_append h
  rw [Lower.forM_step_cons] at hrest
  obtain ⟨_, t', hevent, hrest⟩ := Lower.run_bind_eq_ok hrest
  obtain ⟨u, hmiddle, hrest⟩ := run_forM_append hrest
  rw [Lower.forM_step_cons] at hrest
  obtain ⟨_, u', hevent', -⟩ := Lower.run_bind_eq_ok hrest
  refine ⟨t, t', u, u', hbefore, hevent, hmiddle, hevent', fun n n' hn hn' => ?_⟩
  have hgrows : t'.registers.next ≤ u.registers.next := grows_of_run hbetween hmiddle
  have hbelow : n < t'.registers.next := hn.2
  have habove : ¬n' < u.registers.next := hn'.1
  omega

end ScriptPir

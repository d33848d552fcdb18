import ScriptPir.Proofs.ScriptLowering

/-!
# What the code of an expression computes

A run time gives a meaning to the operations of the target code: arbitrary functions, but such that
constants are combined as they are folded. Calls and globals give values and change nothing.

* `Expr.eval` evaluates an expression by recursion, from the variables, arrays and globals alone.
* `Operations.run` executes instructions one after the other.
* `evaluates` — the code of an expression, executed, leaves the value of the expression in its operand,
  and changes only registers that were free before.
* `expression_meaning` — the same of every expression that a walk enters, for the code appended and
  the value stored by the walk.
-/

namespace ScriptPir

open Shape Lowered

/-! ## Run times

A run time is a parameter: what its operations do is not fixed, but for the constants that the
translator folds. An operator of the source is given its meaning here by its text, with all of the
twelve comparisons and connectives written out; which instruction the code has for it is proved to be
the same (`operate_of_ofText?`). -/

/-- The operations of a run time on its values. -/
structure Operations (V : Type) where
  int : Int64 → V
  float : Float → V
  str : String → V
  /-- A new object of a class. -/
  fresh : Class → V
  neg : V → V
  not : V → V
  arith : String → V → V → V
  power : V → V → V
  /-- A comparison or connective, by the name of its instruction. -/
  test : String → V → V → V
  /-- The result of a call, from its arguments and their names. -/
  call : String → List (Option String × V) → V

namespace Operations

variable {V : Type} (R : Operations V)

/-- The value of a constant. -/
def constant? : Value → Option V
  | .int n => some (R.int n)
  | .float x => some (R.float x)
  | .str s => some (R.str s)
  | .dynamic _ => none

/-- A constant has a value in every run time. -/
theorem constant?_isSome {v : Value} (h : v.isStatic = true) : (R.constant? v).isSome = true := by
  cases v with
  | dynamic => cases h
  | int | float | str => rfl

/-- Arithmetic, by an operator of the source. -/
def combine (op : String) (a b : V) : V := if op = "**" then R.power a b else R.arith op a b

/-- An operation on two values, by an operator of the source: what it means, whatever becomes of it. -/
def operate (op : String) (a b : V) : V :=
  match op with
  | "<" => R.test "islt" a b
  | "<=" => R.test "isle" a b
  | ">" => R.test "isgt" a b
  | ">=" => R.test "isge" a b
  | "==" => R.test "iseq" a b
  | "!=" => R.test "isne" a b
  | "&&" | "and" => R.test "and" a b
  | "||" | "or" => R.test "or" a b
  | "&" => R.test "band" a b
  | "|" => R.test "bor" a b
  | _ => R.combine op a b

/-- The instruction that is chosen for a comparison or connective is the one for its meaning. -/
theorem operate_of_ofText? {op : String} {test : BoolOp} (h : BoolOp.ofText? op = some test) (a b : V) :
    R.operate op a b = R.test test.mnemonic a b := by
  unfold BoolOp.ofText? at h
  split at h <;> cases h <;> rfl

/-- What no instruction is chosen for is arithmetic. -/
theorem operate_of_ofText?_eq_none {op : String} (h : BoolOp.ofText? op = none) (a b : V) :
    R.operate op a b = R.combine op a b := by
  unfold operate
  split
  case h_13 => rfl
  all_goals cases h

end Operations

/-- A run time, which computes what constants are folded to wherever they can be folded. -/
structure Runtime (V : Type) extends Operations V where
  fold_eq : ∀ op l r w a b, fold op l r = .ok w → toOperations.constant? l = some a →
    toOperations.constant? r = some b → toOperations.constant? w = some (toOperations.combine op a b)
  foldNeg_eq : ∀ v w a, foldNeg v = .ok w → toOperations.constant? v = some a →
    toOperations.constant? w = some (neg a)

section Folding

variable {op : String} {w : Value}

theorem isStatic_ints {a b : Int64} (h : Fold.ints op a b = .ok w) : w.isStatic = true := by
  unfold Fold.ints at h
  grind [Value.isStatic]

/-- The fold of two floats is a constant. -/
theorem isStatic_floats {k l : ValueKind} {a b : Float} (h : Fold.floats op k l a b = .ok w) :
    w.isStatic = true := by
  have hfinite : ∀ x, Fold.finite x = .ok w → w.isStatic = true := by
    intro x hx
    unfold Fold.finite at hx
    grind [Value.isStatic]
  unfold Fold.floats at h
  grind

theorem isStatic_repeated {a : String} {n : Int64} (h : Fold.repeated a n = .ok w) :
    w.isStatic = true := by
  unfold Fold.repeated at h
  grind [Value.isStatic]

/-- What is folded is a constant. -/
theorem isStatic_fold {l r : Value} (h : fold op l r = .ok w) : w.isStatic = true := by
  unfold fold at h
  split at h
  · exact isStatic_ints h
  · exact isStatic_floats h
  · exact isStatic_floats h
  · exact isStatic_floats h
  · grind [Value.isStatic]
  · grind [isStatic_repeated]
  · grind [isStatic_repeated]
  · cases h

/-- A constant that is negated is a constant. -/
theorem isStatic_foldNeg {v : Value} (h : foldNeg v = .ok w) : w.isStatic = true := by
  cases v with
  | int n => rw [← Except.ok.inj h]; rfl
  | float x => rw [← Except.ok.inj h]; rfl
  | str | dynamic => cases h

end Folding

namespace Operations

/-- Operations on the constants themselves. What cannot be folded is zero. -/
def folding : Operations Value where
  int := .int
  float := .float
  str := .str
  fresh _ := .int 0
  neg v := (foldNeg v).toOption.getD (.int 0)
  not _ := .int 0
  arith op a b := (fold op a b).toOption.getD (.int 0)
  power a b := (fold "**" a b).toOption.getD (.int 0)
  test _ _ _ := .int 0
  call _ _ := .int 0

/-- Among constants, a constant is its own value. -/
theorem constant?_folding {v : Value} (h : v.isStatic = true) : folding.constant? v = some v := by
  cases v with
  | int | float | str => rfl
  | dynamic => cases h

/-- Among constants, there is only one with a given value. -/
theorem eq_of_constant?_folding {v a : Value} (h : folding.constant? v = some a) : v = a := by
  cases v with
  | int | float | str => exact Option.some.inj h
  | dynamic => cases h

/-- Arithmetic on constants is what they are folded to. -/
theorem combine_folding {op : String} {l r w : Value} (h : fold op l r = .ok w) :
    folding.combine op l r = w := by
  unfold combine
  split
  · rename_i hop
    show (fold "**" l r).toOption.getD (.int 0) = w
    rw [← hop, h]
    rfl
  · show (fold op l r).toOption.getD (.int 0) = w
    rw [h]
    rfl

/-- Negation of a constant is what it is folded to. -/
theorem neg_folding {v w : Value} (h : foldNeg v = .ok w) : folding.neg v = w := by
  show (foldNeg v).toOption.getD (.int 0) = w
  rw [h]
  rfl

end Operations

/-- There are run times: one has the constants as its values. -/
def Runtime.folding : Runtime Value where
  toOperations := .folding
  fold_eq := by
    intro op l r w a b hfold ha hb
    rw [← Operations.eq_of_constant?_folding ha, ← Operations.eq_of_constant?_folding hb]
    rw [Operations.combine_folding hfold, Operations.constant?_folding (isStatic_fold hfold)]
  foldNeg_eq := by
    intro v w a hfold ha
    rw [← Operations.eq_of_constant?_folding ha, Operations.neg_folding hfold]
    exact Operations.constant?_folding (isStatic_foldNeg hfold)

/-- What a subroutine shares with the source: variables, elements of arrays and globals. -/
structure Memory (V : Type) where
  vars : String → V
  elems : String → V → V
  globals : String → V

/-- What instructions work on. -/
structure Env (V : Type) where
  memory : Memory V
  regs : Reg → V

section Execution

variable {V : Type}

/-- Puts a value in a register. -/
def Env.set (env : Env V) (r : Reg) (a : V) : Env V :=
  { env with regs := Function.update env.regs r a }

variable (R : Operations V)

/-- The value in a place. -/
def Env.at (env : Env V) : Ref → V
  | .name x => env.memory.vars x
  | .reg r => env.regs r
  | .elementAt array i => env.memory.elems array (R.int i)
  | .elementBy array place => env.memory.elems array (env.at place)

/-- The value of an operand. -/
def Env.read (env : Env V) : Value → V
  | .int n => R.int n
  | .float x => R.float x
  | .str s => R.str s
  | .dynamic place => env.at R place

/-- The values of the arguments of a call. -/
def Env.readAll (env : Env V) (args : List Argument) : List (Option String × V) :=
  args.map fun a => (a.name, env.read R a.value)

namespace Operations

/-- Executes an instruction of the kinds that expressions are made of; there is no result for others. -/
def exec (env : Env V) : Instr → Option (Env V)
  | .construct (.reg r) cls => some (env.set r (R.fresh cls))
  | .getGlobal r global => some (env.set r (env.memory.globals global))
  | .neg r v => some (env.set r (R.neg (env.read R v)))
  | .not r v => some (env.set r (R.not (env.read R v)))
  | .arith r op a b => some (env.set r (R.arith op (env.read R a) (env.read R b)))
  | .power r a b => some (env.set r (R.power (env.read R a) (env.read R b)))
  | .test r op a b => some (env.set r (R.test op.mnemonic (env.read R a) (env.read R b)))
  | .call (some r) callee args => some (env.set r (R.call callee (env.readAll R args)))
  | _ => none

/-- Executes instructions one after the other. -/
def run : List Instr → Env V → Option (Env V)
  | [], env => some env
  | i :: code, env => (R.exec env i).bind (run code)

/-- Code in two parts is executed one part after the other. -/
theorem run_append (code code' : List Instr) (env : Env V) :
    R.run (code ++ code') env = (R.run code env).bind (R.run code') := by
  induction code generalizing env with
  | nil => rfl
  | cons i code ih =>
    rw [List.cons_append, run, run, Option.bind_assoc]
    congr 1
    funext env'
    exact ih env'

end Operations

end Execution

/-! ## Direct evaluation

The other side of the equation: a recursion on the expression that knows neither registers nor
instructions. -/

namespace Shape

/-- A token that is a literal is a constant. -/
theorem isStatic_literal {t : Token} {v : Value} (h : literal t = .ok v) : v.isStatic = true := by
  have hint : ∀ text, Literal.int text = .ok v → v.isStatic = true := by
    intro text hv
    unfold Literal.int at hv
    simp only at hv
    split at hv
    · rw [← Except.ok.inj hv]
      rfl
    · cases hv
  have hfloat : ∀ text, Literal.float text = .ok v → v.isStatic = true := by
    intro text hv
    unfold Literal.float at hv
    simp only at hv
    split at hv
    · rw [← Except.ok.inj hv]
      rfl
    · cases hv
  have hstring : ∀ text, Literal.string text = .ok v → v.isStatic = true := by
    intro text hv
    unfold Literal.string at hv
    split at hv
    · split at hv
      · rw [← Except.ok.inj hv]
        rfl
      · cases hv
    · cases hv
  -- by the kind of the token; `true` and `false` are names and are integers as literals
  unfold literal at h
  split at h
  · exact hint _ h
  · exact hfloat _ h
  · exact hstring _ h
  · split at h
    · rw [← Except.ok.inj h]
      rfl
    · split at h
      · rw [← Except.ok.inj h]
        rfl
      · cases h
  · cases h

theorem Constant.isStatic (c : Constant) : c.value.isStatic = true := isStatic_literal c.literal_eq

/-- The name of a global: its text without the dollar sign in front. -/
def withoutDollar (text : String) : String :=
  if text.toList.head? = some '$' then String.ofList text.toList.tail else text

/-- The dollar sign is dropped from the name under which a global is read or set. -/
theorem globalName_eq (g : Global) : Lower.globalName g.node = withoutDollar g.text := by
  unfold Lower.globalName withoutDollar
  rw [Leaf.text_node]
  split
  · next name hname => rw [hname, if_pos (by rfl)]; rfl
  · next hno =>
    rw [if_neg]
    intro hhead
    obtain ⟨rest, hrest⟩ := List.head?_eq_some_iff.mp hhead
    exact hno rest hrest

variable {V : Type} (R : Operations V) (memory : Memory V)

mutual

/-- The value of an expression. -/
def Expr.eval : Expr → V
  | .constant _ leaf => (R.constant? leaf.value).get (R.constant?_isSome leaf.isStatic)
  | .var _ name => memory.vars name.text
  | .global _ name => memory.globals (withoutDollar name.text)
  | .paren _ _ inner _ => inner.eval
  | .unary _ sign operand =>
    if sign.text = "-" then R.neg operand.eval else R.not operand.eval
  | .operation _ left op right => R.operate op.text left.eval right.eval
  | .element parts index => memory.elems parts.array.text index.eval
  | .call parts args => R.call parts.callee.text args.eval

/-- The values of arguments, with their names. -/
def Args.eval : Args → List (Option String × V)
  | .nil => []
  | .cons _ name value rest => (name.map (·.text), value.eval) :: rest.eval

end

end Shape

/-! ## Registers that are free

Code is executed in an environment in which some registers hold operands already. It may write to
those only that are taken while it is lowered; `Runs` says that it does no more, and `Runs.andThen`
is the frame rule by which two pieces of code are put together. -/

namespace Shape

/-- A register is taken. -/
def Supply.Below (s : Supply) : Reg → Prop
  | .object n => n < s.objects
  | .boolean n => n < s.bools

/-- Only taken registers are read at a place. -/
def Supply.Covers (s : Supply) : Ref → Prop
  | .reg r => s.Below r
  | .elementBy _ place => s.Covers place
  | .name _ | .elementAt .. => True

/-- Only taken registers are read for an operand. -/
def Supply.CoversValue (s : Supply) : Value → Prop
  | .dynamic place => s.Covers place
  | .int _ | .float _ | .str _ => True

end Shape

section Frames

variable {V : Type} {R : Operations V} {env env' : Env V} {s : Supply}

/-- A place has the same value as long as the memory and the registers it reads are left alone. -/
theorem at_eq (hmemory : env'.memory = env.memory) (hregs : ∀ r, s.Below r → env'.regs r = env.regs r) :
    (place : Ref) → s.Covers place → env'.at R place = env.at R place
  | .name x, _ => by rw [Env.at, Env.at, hmemory]
  | .reg r, h => hregs r h
  | .elementAt array i, _ => by rw [Env.at, Env.at, hmemory]
  | .elementBy array place, h => by rw [Env.at, Env.at, hmemory, at_eq hmemory hregs place h]

/-- An operand is read alike, if the registers below the supply are the same. -/
theorem read_eq (hmemory : env'.memory = env.memory)
    (hregs : ∀ r, s.Below r → env'.regs r = env.regs r) {v : Value} (h : s.CoversValue v) :
    env'.read R v = env.read R v := by
  cases v with
  | int | float | str => rfl
  | dynamic place => exact at_eq hmemory hregs place h

/-- A constant is read as its value, whatever the registers hold. -/
theorem read_of_constant? {v : Value} {a : V} (h : R.constant? v = some a) (env : Env V) :
    env.read R v = a := by
  cases v with
  | dynamic => cases h
  | int | float | str => exact Option.some.inj h

/-- A constant reads no register. -/
theorem coversValue_of_constant? {v : Value} {a : V} (h : R.constant? v = some a) (s : Supply) :
    s.CoversValue v := by
  cases v with
  | dynamic => cases h
  | int | float | str => trivial

end Frames

/-- Code that was executed changed no more than registers that were free before. -/
structure Runs {V α : Type} (R : Operations V) (env : Env V) (s : Supply) (x : Lowered α)
    (env' : Env V) : Prop where
  run : R.run x.code env = some env'
  memory : env'.memory = env.memory
  regs : ∀ r, s.Below r ∨ ¬x.supply.Below r → env'.regs r = env.regs r
  grows : ∀ r, s.Below r → x.supply.Below r

namespace Runs

variable {V α β : Type} {R : Operations V} {env env₁ env₂ : Env V} {s : Supply}

theorem done (R : Operations V) (env : Env V) (a : α) (s : Supply) :
    Runs R env s (Lowered.done a s) env :=
  ⟨rfl, rfl, fun _ _ => rfl, fun _ h => h⟩

/-- Code runs behind code, if the second part works on what the first one leaves. -/
theorem andThen {x : Lowered α} {f : α → Supply → Lowered β} (h : Runs R env s x env₁)
    (h' : Runs R env₁ x.supply (f x.result x.supply) env₂) : Runs R env s (x.andThen f) env₂ := by
  refine ⟨?_, h'.memory.trans h.memory, fun r hr => ?_, fun r hr => h'.grows r (h.grows r hr)⟩
  · show R.run (x.code ++ (f x.result x.supply).code) env = some env₂
    rw [R.run_append, h.run]
    exact h'.run
  · rcases hr with hr | hr
    · rw [h'.regs r (.inl (h.grows r hr)), h.regs r (.inl hr)]
    · have hout : ¬x.supply.Below r := fun hbelow => hr (h'.grows r hbelow)
      rw [h'.regs r (.inr hr), h.regs r (.inr hout)]

/-- What was read before some code can still be read behind it. -/
theorem read_eq {x : Lowered α} (h : Runs R env s x env₁) {v : Value} (hv : s.CoversValue v) :
    env₁.read R v = env.read R v :=
  ScriptPir.read_eq h.memory (fun r hr => h.regs r (.inl hr)) hv

/-- Places that could be read stay readable. -/
theorem covers {x : Lowered α} (h : Runs R env s x env₁) :
    (place : Ref) → s.Covers place → x.supply.Covers place
  | .reg r, hr => h.grows r hr
  | .elementBy _ place, hp => h.covers place hp
  | .name _, _ => trivial
  | .elementAt .., _ => trivial

/-- Operands that could be read stay readable. -/
theorem coversValue {x : Lowered α} (h : Runs R env s x env₁) {v : Value} (hv : s.CoversValue v) :
    x.supply.CoversValue v := by
  cases v with
  | int | float | str => trivial
  | dynamic place => exact h.covers place hv

/-- Code that writes to the next object register runs. -/
theorem inObject {code : Reg → List Instr} {a : V}
    (h : R.run (code (.object s.objects)) env = some (env.set (.object s.objects) a)) :
    Runs R env s (Lowered.inObject code s) (env.set (.object s.objects) a) := by
  refine ⟨h, rfl, fun r hr => Function.update_of_ne ?_ _ _, fun r hr => ?_⟩
  · rintro rfl
    rcases hr with hr | hr
    · exact Nat.lt_irrefl _ hr
    · exact hr (Nat.lt_succ_self _)
  · cases r with
    | object n => exact Nat.lt_succ_of_lt hr
    | boolean n => exact hr

/-- Code that writes to the next register for truth values runs. -/
theorem inBoolean {code : Reg → List Instr} {a : V}
    (h : R.run (code (.boolean s.bools)) env = some (env.set (.boolean s.bools) a)) :
    Runs R env s (Lowered.inBoolean code s) (env.set (.boolean s.bools) a) := by
  refine ⟨h, rfl, fun r hr => Function.update_of_ne ?_ _ _, fun r hr => ?_⟩
  · rintro rfl
    rcases hr with hr | hr
    · exact Nat.lt_irrefl _ hr
    · exact hr (Nat.lt_succ_self _)
  · cases r with
    | object n => exact hr
    | boolean n => exact Nat.lt_succ_of_lt hr

end Runs

/-- Code that was executed left a value in its operand. -/
structure Evaluates {V : Type} (R : Operations V) (env : Env V) (s : Supply) (x : Lowered Value) (a : V)
    (env' : Env V) : Prop where
  runs : Runs R env s x env'
  value : env'.read R x.result = a
  covers : x.supply.CoversValue x.result

section Steps

variable {V : Type} {R : Operations V} {env : Env V} {s : Supply}

theorem evaluates_constant {v : Value} {a : V} (h : R.constant? v = some a) (env : Env V) (s : Supply) :
    Evaluates R env s (done v s) a env :=
  ⟨.done R env v s, read_of_constant? h env, coversValue_of_constant? h s⟩

/-- Code that leaves a value in the next object register evaluates to it. -/
theorem evaluates_inObject {code : Reg → List Instr} {a : V}
    (h : R.run (code (.object s.objects)) env = some (env.set (.object s.objects) a)) :
    Evaluates R env s (inObject code s) a (env.set (.object s.objects) a) :=
  ⟨.inObject h, Function.update_self .., Nat.lt_succ_self _⟩

/-- Code that leaves a value in the next register for truth values evaluates to it. -/
theorem evaluates_inBoolean {code : Reg → List Instr} {a : V}
    (h : R.run (code (.boolean s.bools)) env = some (env.set (.boolean s.bools) a)) :
    Evaluates R env s (inBoolean code s) a (env.set (.boolean s.bools) a) :=
  ⟨.inBoolean h, Function.update_self .., Nat.lt_succ_self _⟩

/-- A register is constructed before a result goes to it. The operands are read from elsewhere. -/
theorem run_construct {i : Instr} {a : V} {cls : Class} (hcovers : ∀ env' : Env V,
      env'.memory = env.memory → (∀ r, s.Below r → env'.regs r = env.regs r) →
        R.exec env' i = some (env'.set (.object s.objects) a)) :
    R.run [.construct (.reg (.object s.objects)) cls, i] env =
      some (env.set (.object s.objects) a) := by
  have hi := hcovers (env.set (.object s.objects) (R.fresh cls)) rfl fun r hr =>
    Function.update_of_ne (by rintro rfl; exact Nat.lt_irrefl _ hr) _ _
  rw [Operations.run, Operations.exec, Option.bind_some, Operations.run, hi]
  show some _ = some _
  rw [Env.set, Env.set, Env.set, Function.update_idem]

end Steps

section Steps

variable {V : Type} {R : Runtime V} {env : Env V} {s : Supply}

/-- A minus sign is folded, or an instruction negates its operand. -/
theorem evaluates_negated {v : Value} (hv : s.CoversValue v) :
    ∃ env', Evaluates R.toOperations env s (negated v s) (R.neg (env.read R.toOperations v)) env' := by
  unfold negated
  cases hfold : foldNeg v with
  | ok w =>
    -- only constants are folded, and the run time agrees with the fold on them
    have hstatic : v.isStatic = true := by
      cases v with
      | int | float | str => rfl
      | dynamic => cases hfold
    obtain ⟨a, ha⟩ := Option.isSome_iff_exists.mp (R.constant?_isSome hstatic)
    rw [read_of_constant? ha env]
    exact ⟨env, evaluates_constant (R.foldNeg_eq v w a hfold ha) env s⟩
  | error e =>
    refine ⟨_, evaluates_inObject (run_construct fun env' hmemory hregs => ?_)⟩
    rw [Operations.exec, read_eq hmemory hregs hv]

/-- Arithmetic is folded, or an instruction computes it from its operands. -/
theorem evaluates_computed {op : String} {l r : Value} (hl : s.CoversValue l) (hr : s.CoversValue r) :
    ∃ env', Evaluates R.toOperations env s (computed op l r s)
      (R.combine op (env.read R.toOperations l) (env.read R.toOperations r)) env' := by
  unfold computed
  cases hfold : fold op l r with
  | ok w =>
    -- only constants are folded, and the run time agrees with the fold
    have hstatic : l.isStatic = true ∧ r.isStatic = true := by
      cases l <;> cases r <;> first | exact ⟨rfl, rfl⟩ | cases hfold
    obtain ⟨a, ha⟩ := Option.isSome_iff_exists.mp (R.constant?_isSome hstatic.1)
    obtain ⟨b, hb⟩ := Option.isSome_iff_exists.mp (R.constant?_isSome hstatic.2)
    rw [read_of_constant? ha env, read_of_constant? hb env]
    exact ⟨env, evaluates_constant (R.fold_eq op l r w a b hfold ha hb) env s⟩
  | error e =>
    refine ⟨_, evaluates_inObject (run_construct fun env' hmemory hregs => ?_)⟩
    rw [Operations.combine]
    split
    · rw [Operations.exec, read_eq hmemory hregs hl, read_eq hmemory hregs hr]
    · rw [Operations.exec, read_eq hmemory hregs hl, read_eq hmemory hregs hr]

/-- A sign is a minus or a negation. -/
theorem evaluates_signed (R : Runtime V) (env : Env V) (sign : String) {v : Value}
    (hv : s.CoversValue v) :
    ∃ env', Evaluates R.toOperations env s (signed sign v s)
      (if sign = "-" then R.neg (env.read R.toOperations v) else R.not (env.read R.toOperations v))
      env' := by
  unfold signed
  split
  · exact evaluates_negated hv
  · exact ⟨_, evaluates_inBoolean rfl⟩

/-- An operator means what its text says: a test by the instruction for it, or arithmetic. -/
theorem evaluates_operated (R : Runtime V) (env : Env V) (op : BinaryOp) {l r : Value}
    (hl : s.CoversValue l) (hr : s.CoversValue r) :
    ∃ env', Evaluates R.toOperations env s (operated op l r s)
      (R.operate op.text (env.read R.toOperations l) (env.read R.toOperations r)) env' := by
  unfold operated
  cases hop : BoolOp.ofText? op.text with
  | none =>
    rw [R.operate_of_ofText?_eq_none hop]
    exact evaluates_computed hl hr
  | some test =>
    rw [R.operate_of_ofText? hop]
    exact ⟨_, evaluates_inBoolean rfl⟩

end Steps

/-! ## Expressions

The induction on the expression. Operands are evaluated from left to right, and the value of the left
one must survive the code of the right one: that is `Runs.read_eq`. -/

section Expressions

variable {V : Type} (R : Runtime V)

mutual

/-- The code of an expression computes its value. -/
theorem evaluates (e : Expr) (hindexed : e.Indexed) (env : Env V) (s : Supply) :
    ∃ env', Evaluates R.toOperations env s (e.lowered s) (e.eval R.toOperations env.memory) env' := by
  cases e with
  | constant id leaf =>
    have hvalue : R.constant? leaf.value =
        some ((Expr.constant id leaf).eval R.toOperations env.memory) := by
      rw [Expr.eval, Option.some_get]
    exact ⟨env, evaluates_constant hvalue env s⟩
  | var id name => exact ⟨env, .done _ env _ s, rfl, trivial⟩
  | global id name =>
    rw [Expr.eval, ← globalName_eq]
    exact ⟨_, evaluates_inObject rfl⟩
  | paren id opening inner closing => exact evaluates inner hindexed env s
  | unary id sign operand =>
    obtain ⟨env₁, h₁⟩ := evaluates operand hindexed env s
    obtain ⟨env₂, h₂⟩ := evaluates_signed R env₁ sign.text h₁.covers
    rw [h₁.value] at h₂
    exact ⟨env₂, h₁.runs.andThen h₂.runs, h₂.value, h₂.covers⟩
  | operation id left op right =>
    obtain ⟨env₁, h₁⟩ := evaluates left hindexed.1 env s
    obtain ⟨env₂, h₂⟩ := evaluates right hindexed.2 env₁ (left.lowered s).supply
    -- the right operand leaves the registers of the left one alone
    have hleft := h₂.runs.read_eq h₁.covers
    obtain ⟨env₃, h₃⟩ := evaluates_operated R env₂ op
      (h₂.runs.coversValue h₁.covers) h₂.covers
    rw [hleft, h₁.value, h₂.value, h₁.runs.memory] at h₃
    exact ⟨env₃, h₁.runs.andThen (f := fun l s => (right.lowered s).andThen fun r => operated op l r)
      (h₂.runs.andThen (f := fun r => operated op _ r) h₃.runs), h₃.value, h₃.covers⟩
  | element parts index =>
    obtain ⟨env₁, h₁⟩ := evaluates index hindexed.2 env s
    refine ⟨env₁, h₁.runs.andThen (f := fun v => done (elementOf parts.array.text v)) (.done ..),
      ?_, ?_⟩
    · show env₁.read R.toOperations (elementOf parts.array.text (index.lowered s).result) = _
      rw [Expr.eval, ← h₁.value, ← h₁.runs.memory]
      obtain ⟨i, hi⟩ | ⟨place, hplace⟩ := integral_lowered index hindexed.2 hindexed.1 s
      · rw [hi]
        rfl
      · rw [hplace]
        rfl
    · have hcovers := h₁.covers
      show (index.lowered s).supply.CoversValue
        (elementOf parts.array.text (index.lowered s).result)
      obtain ⟨i, hi⟩ | ⟨place, hplace⟩ := integral_lowered index hindexed.2 hindexed.1 s
      · rw [hi]
        trivial
      · rw [hplace] at hcovers ⊢
        exact hcovers
  | call parts args =>
    obtain ⟨env₁, hruns, hvalues, -⟩ := evaluates_args args hindexed env s
    have hcall : Runs R.toOperations env₁ (args.lowered s).supply
        (inObject (fun r => [.call (some r) parts.callee.text (args.lowered s).result])
          (args.lowered s).supply) _ := .inObject rfl
    refine ⟨_, hruns.andThen (f := fun as => inObject fun r => [.call (some r) parts.callee.text as])
      hcall, ?_, Nat.lt_succ_self _⟩
    rw [Expr.eval, ← hvalues]
    exact Function.update_self ..

/-- The code of arguments computes their values, and they are all still there at its end. -/
theorem evaluates_args (a : Args) (hindexed : a.Indexed) (env : Env V) (s : Supply) :
    ∃ env', Runs R.toOperations env s (a.lowered s) env' ∧
      env'.readAll R.toOperations (a.lowered s).result = a.eval R.toOperations env.memory ∧
      ∀ x ∈ (a.lowered s).result, (a.lowered s).supply.CoversValue x.value := by
  cases a with
  | nil => exact ⟨env, .done _ env [] s, rfl, by simp [Args.lowered, done]⟩
  | cons id name value rest =>
    obtain ⟨env₁, h₁⟩ := evaluates value hindexed.1 env s
    obtain ⟨env₂, hruns, hvalues, hcovers⟩ :=
      evaluates_args rest hindexed.2 env₁ (value.lowered s).supply
    -- the value of the first argument is read behind the code of all others, which leaves it alone
    have hwhole : Runs R.toOperations env s ((Args.cons id name value rest).lowered s) env₂ := by
      rw [Args.lowered]
      refine h₁.runs.andThen ?_
      exact hruns.andThen (.done ..)
    refine ⟨env₂, hwhole, ?_, ?_⟩
    · have hfirst := hruns.read_eq h₁.covers
      rw [h₁.value] at hfirst
      rw [h₁.runs.memory] at hvalues
      show (name.map (·.text), env₂.read R.toOperations (value.lowered s).result) ::
        env₂.readAll R.toOperations (rest.lowered (value.lowered s).supply).result = _
      rw [hfirst, hvalues, Args.eval]
    · intro x hx
      rcases List.mem_cons.mp hx with rfl | hx
      · exact hruns.coversValue h₁.covers
      · exact hcovers x hx

end

end Expressions

/-! ## Expressions that a walk enters

What is known of lowered code holds of the walk: the code is what the walk appends to the open
buffer, and the value what it enters in its table. -/

/-- A register was taken between two states. -/
def Allocated (t t' : Lowering) (r : Reg) : Prop := ¬t.supply.Below r ∧ t'.supply.Below r

/-- What the code and the value of an expression that was walked from `t` to `t'` mean at run time. -/
def Means (e : Expr) (code : List Instr) (v : Value) (t t' : Lowering) : Prop :=
  ∀ (V : Type) (R : Runtime V) (env : Env V), ∃ env', R.run code env = some env' ∧
    env'.read R.toOperations v = e.eval R.toOperations env.memory ∧ env'.memory = env.memory ∧
    ∀ r, ¬Allocated t t' r → env'.regs r = env.regs r

/-- Every expression of a parsed tree, wherever a walk enters it, appends code that computes its value
into the operand stored for it, and changes nothing but registers taken on the way. A call whose
result is not used is the one exception: no operand is stored for it. -/
theorem expression_meaning {src : Source} {root n : Node} {label stdlib : String} {t : Lowering}
    (hparse : parse src = .ok root) (hentered : Entered [root] (.started label stdlib) n t)
    (hexpr : n.kind.isExpr = true) (hused : t.stmtCall ≠ n.id) :
    ∃ (e : Expr) (t' : Lowering) (code : List Instr) (v : Value), n = e.node ∧
      (Lower.walk n).run t = .ok ((), t') ∧ Appended t t' code ∧ t'.value n.id = some v ∧
      Means e code v t t' := by
  obtain ⟨script, E, s, rfl, -, -, -, hlowers⟩ := exists_lowers hparse label stdlib
  -- what fits and is an expression has the shape of one, unless it is a call that is not used
  cases hlowers.visits.fits n t hentered with
  | other hother => rw [hother] at hexpr; cases hexpr
  | unused hcall => exact absurd hcall hused
  | @simple x =>
    rw [x.kind_isExpr] at hexpr
    cases hexpr
  | @expr e t hindexed hready =>
    obtain ⟨t', hvisits, hcomputes⟩ := visits_expr e hindexed hready
    refine ⟨e, t', (e.lowered t.supply).code, (e.lowered t.supply).result, rfl, hvisits.run,
      hcomputes.passage.appended hready.buffers, ?_, fun V R env => ?_⟩
    · rw [Expr.node_id]
      exact hcomputes.value
    · obtain ⟨env', heval⟩ := evaluates R e hindexed env t.supply
      refine ⟨env', heval.runs.run, heval.value, heval.runs.memory, fun r hr => heval.runs.regs r ?_⟩
      -- a register that was not taken on the way was taken before, or is still free
      rw [Allocated, hcomputes.supply] at hr
      by_cases hbelow : t.supply.Below r
      · exact .inl hbelow
      · exact .inr fun htaken => hr ⟨hbelow, htaken⟩

/-- The value of an assignment is such an expression, and there are run times to execute it. -/
theorem expression_meaning_assigned :
    ∃ root n t, parse (Source.ofString "x = -a[1 + 1] ** f(k: $g)\n") = .ok root ∧
      Entered [root] (.started "" defaultStdlib) n t ∧ n.kind.isExpr = true ∧ t.stmtCall ≠ n.id ∧
      ∃ (e : Expr) (t' : Lowering) (code : List Instr) (v : Value), n = e.node ∧
        (Lower.walk n).run t = .ok ((), t') ∧ Appended t t' code ∧ t'.value n.id = some v ∧
        Means e code v t t' ∧ Nonempty (Runtime Value) := by
  -- evaluated once: the source parses, and there is an operation in it
  have hshape : ((parse (Source.ofString "x = -a[1 + 1] ** f(k: $g)\n")).toOption.any fun root =>
      (root.nodesOnto []).any fun n => decide (n.kind = .binary)) = true := by decide +kernel
  cases hparse : parse (Source.ofString "x = -a[1 + 1] ** f(k: $g)\n") with
  | error e => rw [hparse] at hshape; cases hshape
  | ok root =>
    rw [hparse] at hshape
    obtain ⟨n, hmem, hbinary⟩ := List.any_eq_true.mp hshape
    have hkind : n.kind = .binary := of_decide_eq_true hbinary
    have hexpr : n.kind.isExpr = true := by rw [hkind]; rfl
    obtain ⟨script, E, s, rfl, -, -, -, hlowers⟩ := exists_lowers hparse "" defaultStdlib
    obtain ⟨t, hentered⟩ := exists_entered hlowers.visits.run hmem
    have hused := (hlowers.visits.fits n t hentered).used hexpr (by rw [hkind]; decide)
    obtain ⟨e, t', code, v, hn, hwalk, happended, hv, hmeans⟩ :=
      expression_meaning hparse hentered hexpr hused
    exact ⟨_, n, t, rfl, hentered, hexpr, hused, e, t', code, v, hn, hwalk, happended, hv, hmeans,
      ⟨.folding⟩⟩

end ScriptPir

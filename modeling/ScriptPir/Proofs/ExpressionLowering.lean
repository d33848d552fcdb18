import ScriptPir.Proofs.Passage

/-!
# What the walk of an expression does

* `Expr.lowered` gives the value of an expression, the instructions that compute it and the registers
  taken, from the registers that are free before. It knows nothing of ids, tables or buffers.
* `visits_expr` — walking an expression writes exactly these instructions, stores that value and takes
  these registers, from every state that can enter it.

That the operands of an index are integers or held at run time, so that every index can be lowered, is
what the parser's check of constants in an index is for (`integral_lowered`).

* `Computes` — a state is reached by writing the code of an expression and recording its value;
* `reaches_exitUnary`, `reaches_exitOperation`, … — the exits, one for each kind of node;
* `visits_args` — arguments, by mutual induction with expressions.
-/

namespace ScriptPir

namespace Shape

/-! ## Lowering without a walk

A small monad for code: a result, the instructions in front of it and the registers that are free
behind them. The recursion is on the expression, so statements about lowered code are proved by
induction on it and carried over to the walk at the end. -/

/-- The registers that are free. -/
structure Supply where
  objects : Nat
  bools : Nat

/-- A result, the instructions that lead to it and the registers that are free behind them. -/
structure Lowered (α : Type) where
  result : α
  code : List Instr
  supply : Supply

namespace Lowered

variable {α β : Type}

/-- A result that needs no instructions. -/
def done (a : α) (s : Supply) : Lowered α := ⟨a, [], s⟩

/-- Goes on from a result. -/
def andThen (x : Lowered α) (f : α → Supply → Lowered β) : Lowered β :=
  let y := f x.result x.supply
  ⟨y.result, x.code ++ y.code, y.supply⟩

/-- A result in a new object register. -/
def inObject (code : Reg → List Instr) (s : Supply) : Lowered Value :=
  ⟨.dynamic (.reg (.object s.objects)), code (.object s.objects), { s with objects := s.objects + 1 }⟩

/-- A result in a new truth register. -/
def inBoolean (code : Reg → List Instr) (s : Supply) : Lowered Value :=
  ⟨.dynamic (.reg (.boolean s.bools)), code (.boolean s.bools), { s with bools := s.bools + 1 }⟩

theorem andThen_done (x : Lowered α) : x.andThen done = x := by
  simp [andThen, done]

end Lowered

open Lowered

/-- A negation, done beforehand if it can be. -/
def negated (v : Value) : Supply → Lowered Value :=
  match foldNeg v with
  | .ok w => done w
  | .error _ => inObject fun r => [.construct (.reg r) .integer, .neg r v]

/-- An operation on one operand. -/
def signed (sign : String) (v : Value) : Supply → Lowered Value :=
  if sign = "-" then negated v else inBoolean fun r => [.not r v]

/-- Arithmetic, done beforehand if it can be. -/
def computed (op : String) (l r : Value) : Supply → Lowered Value :=
  match fold op l r with
  | .ok w => done w
  | .error _ => inObject fun reg =>
    [.construct (.reg reg) .integer, if op = "**" then .power reg l r else .arith reg op l r]

/-- An operation on two operands. -/
def operated (op : BinaryOp) (l r : Value) : Supply → Lowered Value :=
  match BoolOp.ofText? op.text with
  | none => computed op.text l r
  | some test => inBoolean fun reg => [.test reg test l r]

theorem operated_eq_computed {op : BinaryOp} (h : BoolOp.ofText? op.text = none) (l r : Value) :
    operated op l r = computed op.text l r := by
  rw [operated, h]

theorem operated_eq_test {op : BinaryOp} {test : BoolOp} (h : BoolOp.ofText? op.text = some test)
    (l r : Value) : operated op l r = inBoolean fun reg => [.test reg test l r] := by
  rw [operated, h]

/-- The place of an element. -/
def elementOf (array : String) : Value → Value
  | .int i => .dynamic (.elementAt array i)
  | .dynamic place => .dynamic (.elementBy array place)
  | v => v

mutual

/-- The value of an expression, and how it is computed. -/
def Expr.lowered : Expr → Supply → Lowered Value
  | .constant _ leaf => done leaf.value
  | .var _ name => done (.dynamic (.name name.text))
  | .global _ name => inObject fun r => [.getGlobal r (Lower.globalName name.node)]
  | .paren _ _ inner _ => inner.lowered
  | .unary _ sign operand => fun s => (operand.lowered s).andThen (signed sign.text)
  | .operation _ left op right => fun s =>
    (left.lowered s).andThen fun l s => (right.lowered s).andThen fun r => operated op l r
  | .element parts index => fun s =>
    (index.lowered s).andThen fun v => done (elementOf parts.array.text v)
  | .call parts args => fun s =>
    (args.lowered s).andThen fun as => inObject fun r => [.call (some r) parts.callee.text as]

/-- The values of arguments, and how they are computed. -/
def Args.lowered : Args → Supply → Lowered (List Argument)
  | .nil => done []
  | .cons _ name value rest => fun s =>
    (value.lowered s).andThen fun v s =>
      (rest.lowered s).andThen fun as => done (⟨v, name.map (·.text)⟩ :: as)

end

/-- The values of arguments are those of their nodes. -/
def Args.Stored (value : Int → Option Value) : Args → List Argument → Prop
  | .nil, as => as = []
  | .cons id name _ rest, as =>
    ∃ v tail, as = ⟨v, name.map (·.text)⟩ :: tail ∧ value id = some v ∧ rest.Stored value tail

/-! ## The operators of the table

An operator of a parsed tree is one of the table, so its text tells its kind. -/

/-- The operator of an operation is in the table. -/
theorem BinaryOp.mem_table (o : BinaryOp) : (o.text, o.op) ∈ Operator.table := by
  have hop := o.ofToken_eq
  unfold Operator.ofToken? at hop
  split at hop
  · obtain ⟨entry, hfind, hentry⟩ := Option.map_eq_some_iff.mp hop
    have htext : entry.1 = o.text := by simpa [Leaf.text] using List.find?_some hfind
    rw [← hentry, ← htext]
    exact List.mem_of_find?_eq_some hfind
  · cases hop

/-- Arithmetic operators are no tests, and all others are. -/
theorem BinaryOp.kind_cases (o : BinaryOp) :
    (o.op.kind = .binary ∧ BoolOp.ofText? o.text = none) ∨
      ((o.op.kind = .compare ∨ o.op.kind = .logic) ∧ ∃ test, BoolOp.ofText? o.text = some test) := by
  -- the table is finite, so its entries can be checked one by one
  have htable : ∀ entry ∈ Operator.table,
      (entry.2.kind = .binary ∧ BoolOp.ofText? entry.1 = none) ∨
        ((entry.2.kind = .compare ∨ entry.2.kind = .logic) ∧
          (BoolOp.ofText? entry.1).isSome = true) := by decide
  obtain h | ⟨hkind, hsome⟩ := htable _ o.mem_table
  · exact .inl h
  · exact .inr ⟨hkind, Option.isSome_iff_exists.mp hsome⟩

/-! ## Indices

A place can be computed from an integer or from a value of the run time, and from nothing else. All
expressions that pass the check of the parser have such values, since folding keeps integers. -/

/-- A value that an index can have: an integer, or one held at run time. -/
def Integral (v : Value) : Prop := (∃ i, v = .int i) ∨ ∃ place, v = .dynamic place

/-- Negation keeps integers. -/
theorem integral_negated {v : Value} (hv : Integral v) (s : Supply) :
    Integral (negated v s).result := by
  obtain ⟨i, rfl⟩ | ⟨place, rfl⟩ := hv
  · exact .inl ⟨-i, rfl⟩
  · exact .inr ⟨_, rfl⟩

/-- Arithmetic on integers gives integers. -/
theorem integral_ints {op : String} {l r : Int64} {w : Value} (h : Fold.ints op l r = .ok w) :
    Integral w := by
  unfold Fold.ints at h
  split at h
  iterate 3 exact .inl ⟨_, (Except.ok.inj h).symm⟩
  iterate 3
    split at h
    · cases h
    · exact .inl ⟨_, (Except.ok.inj h).symm⟩
  · cases h

/-- Arithmetic keeps integers, whether it is folded or not. -/
theorem integral_computed {op : String} {l r : Value} (hl : Integral l) (hr : Integral r)
    (s : Supply) : Integral (computed op l r s).result := by
  unfold computed
  cases hfold : fold op l r with
  | error e => exact .inr ⟨_, rfl⟩
  | ok w =>
    obtain ⟨i, rfl⟩ | ⟨place, rfl⟩ := hl
    · obtain ⟨j, rfl⟩ | ⟨place, rfl⟩ := hr
      · exact integral_ints hfold
      · cases hfold
    · cases hfold

/-- The value of a constant that is neither a fraction nor a string is an integer. -/
theorem integral_literal {t : Token} {v : Value} (h : literal t = .ok v) (hfloat : t.kind ≠ .float)
    (hstring : t.kind ≠ .string) : Integral v := by
  -- one goal for each kind of token with a value
  unfold literal at h
  split at h
  · unfold Literal.int at h
    simp only at h
    split at h
    · exact .inl ⟨_, (Except.ok.inj h).symm⟩
    · cases h
  · exact absurd ‹_› hfloat
  · exact absurd ‹_› hstring
  · split at h
    · exact .inl ⟨_, (Except.ok.inj h).symm⟩
    · split at h
      · exact .inl ⟨_, (Except.ok.inj h).symm⟩
      · cases h
  · cases h

/-- Some nodes have no bad constant if neither the first nor the others do. -/
theorem nonIntegralAny?_cons_eq_none {n : Node} {ns : List Node} :
    Node.nonIntegralAny? (n :: ns) = none ↔
      n.nonIntegral? = none ∧ Node.nonIntegralAny? ns = none := by
  rw [Node.nonIntegralAny?]
  split <;> simp_all

/-- An expression without constants other than integers, outside calls and indices, has a value that
an index can have. -/
theorem integral_lowered (e : Expr) (hindexed : e.Indexed) (h : e.node.nonIntegral? = none)
    (s : Supply) : Integral (e.lowered s).result := by
  cases e with
  | constant id leaf =>
    have hkind : ¬(leaf.token.kind = .float ∨ leaf.token.kind = .string) := by
      intro hkind
      simp [Expr.node, Node.nonIntegral?, Leaf.node, Node.token, hkind] at h
    exact integral_literal leaf.literal_eq (fun hf => hkind (.inl hf)) fun hs => hkind (.inr hs)
  | var id name => exact .inr ⟨_, rfl⟩
  | global id name => exact .inr ⟨_, rfl⟩
  | paren id opening inner closing =>
    refine integral_lowered inner hindexed ?_ s
    rw [Expr.node, nonIntegral?_mk (by decide) (by decide) (by decide)] at h
    exact (nonIntegralAny?_cons_eq_none.mp (nonIntegralAny?_cons_eq_none.mp h).2).1
  | unary id sign operand =>
    have hoperand : operand.node.nonIntegral? = none := by
      rw [Expr.node, nonIntegral?_mk (by decide) (by decide) (by decide)] at h
      exact (nonIntegralAny?_cons_eq_none.mp (nonIntegralAny?_cons_eq_none.mp h).2).1
    -- a minus folds an integer to an integer; the result of a not is in a register
    show Integral (signed sign.text _ _).result
    unfold signed
    split
    · exact integral_negated (integral_lowered operand hindexed hoperand s) _
    · exact .inr ⟨_, rfl⟩
  | operation id left op right =>
    have hoperands : left.node.nonIntegral? = none ∧ right.node.nonIntegral? = none := by
      have hkind : op.op.kind ≠ .literal ∧ op.op.kind ≠ .index ∧ op.op.kind ≠ .call := by
        obtain ⟨hkind, -⟩ | ⟨hkind | hkind, -⟩ := op.kind_cases <;> rw [hkind] <;> decide
      rw [Expr.node, nonIntegral?_mk hkind.1 hkind.2.1 hkind.2.2] at h
      obtain ⟨hleft, hrest⟩ := nonIntegralAny?_cons_eq_none.mp h
      exact ⟨hleft, (nonIntegralAny?_cons_eq_none.mp (nonIntegralAny?_cons_eq_none.mp hrest).2).1⟩
    show Integral (operated op _ _ _).result
    cases htest : BoolOp.ofText? op.text with
    | none =>
      rw [operated_eq_computed htest]
      exact integral_computed (integral_lowered left hindexed.1 hoperands.1 s)
        (integral_lowered right hindexed.2 hoperands.2 _) _
    | some test =>
      rw [operated_eq_test htest]
      exact .inr ⟨_, rfl⟩
  -- an element is in a place of its own, whatever its index
  | element parts index =>
    show Integral (elementOf _ _)
    obtain ⟨i, hi⟩ | ⟨place, hplace⟩ := integral_lowered index hindexed.2 hindexed.1 s
    · rw [hi]
      exact .inr ⟨_, rfl⟩
    · rw [hplace]
      exact .inr ⟨_, rfl⟩
  | call parts args => exact .inr ⟨_, rfl⟩

end Shape

open Shape Lowered

/-- The registers that are free in a state. -/
def Lowering.supply (s : Lowering) : Supply :=
  ⟨s.registers.next, (s.scopes.stack.head?.map Scope.nextBool).getD 0⟩

/-- The variables declared in the scopes of a state. -/
def Lowering.names (s : Lowering) : List (Array String) := s.scopes.stack.map Scope.names

/-- Between two states of a walk, the value of a node was found out. -/
structure Computes (s : Lowering) (ids : List Int) (id : Int) (r : Lowered Value)
    (s' : Lowering) : Prop where
  passage : Passage s ids (r.code.map .instr) 0 s'
  fragment : s'.fragment = s.fragment
  supply : s'.supply = r.supply
  names : s'.names = s.names
  value : s'.value id = some r.result

/-- Between two states of a walk, the values of some arguments were found out. -/
structure ComputesArgs (s : Lowering) (a : Args) (r : Lowered (List Argument)) (s' : Lowering) :
    Prop where
  passage : Passage s (Node.idsAll a.nodes) (r.code.map .instr) 0 s'
  fragment : s'.fragment = s.fragment
  supply : s'.supply = r.supply
  names : s'.names = s.names
  stored : a.Stored s'.value r.result

section Steps

variable {s s' s'' : Lowering} {ids ids' : List Int} {id id' : Int} {r : Lowered Value}

theorem Computes.mono (h : Computes s ids id r s') (hsub : ids ⊆ ids') :
    Computes s ids' id r s' :=
  ⟨h.passage.mono hsub, h.fragment, h.supply, h.names, h.value⟩

/-- A computation behind another one goes on from its value and its supply. -/
theorem Computes.andThen {f : Value → Supply → Lowered Value} (h : Computes s ids id r s')
    (h' : Computes s' ids' id' (f r.result s'.supply) s'') :
    Computes s (ids ++ ids') id' (r.andThen f) s'' := by
  rw [h.supply] at h'
  refine ⟨?_, h'.fragment.trans h.fragment, h'.supply, h'.names.trans h.names, h'.value⟩
  have hpassage := h.passage.trans h'.passage
  rw [← List.map_append] at hpassage
  exact hpassage

/-- Errors and notices make no difference to a computation. -/
theorem Computes.reported {errors : ErrorList} {notices : Array Notice}
    (h : Computes { s with errors, notices } ids id r s') : Computes s ids id r s' :=
  ⟨⟨h.passage.buffers, h.passage.scopes, h.passage.frames, h.passage.loops, h.passage.next,
    h.passage.stmtCall, h.passage.value⟩, h.fragment, h.supply, h.names, h.value⟩

/-- A step computes a value if it writes its instructions, takes its registers and stores it. -/
theorem computes_of_eq {top : Fragment} {below : List Fragment} {scope : Scope} {scopes : List Scope}
    (htop : s.buffers.stack = top :: below) (hscope : s.scopes.stack = scope :: scopes)
    (hbuffers : s'.buffers.stack = (top ++ (r.code.map Line.instr).toArray) :: below)
    (hscopes : s'.scopes.stack = { scope with nextBool := r.supply.bools } :: scopes)
    (hobjects : s'.registers.next = r.supply.objects) (hlabels : s'.labels = s.labels)
    (hcall : s'.stmtCall = s.stmtCall) (hfragments : s'.fragments = s.fragments)
    (hvalues : s'.values = s.values.insert id r.result) : Computes s [id] id r s' := by
  have hvalue : s'.value = Function.update s.value id (some r.result) := by
    rw [← value_insert]
    funext i
    rw [Lowering.value, hvalues]
    rfl
  -- the fields one by one; the table of values is the only one that is looked into
  refine ⟨⟨?_, ⟨fun scope => { scope with nextBool := r.supply.bools }, ?_⟩, ?_, ?_, ?_, hcall, ?_⟩,
    ?_, ?_, ?_, ?_⟩
  · rw [hbuffers, htop, List.modifyHead_cons]
  · rw [hscopes, hscope, List.modifyHead_cons]
  · rw [hlabels]
  · rw [hlabels]
  · rw [hlabels, Nat.add_zero]
  · intro i hi
    rw [hvalue, Function.update_of_ne (by simpa using hi)]
  · funext i
    rw [Lowering.fragment, hfragments]
    rfl
  · rw [Lowering.supply, hobjects, hscopes]
    rfl
  · rw [Lowering.names, Lowering.names, hscopes, hscope]
    rfl
  · rw [hvalue, Function.update_self]

variable (hb : s.buffers.stack ≠ []) (hs : s.scopes.stack ≠ []) (n : Node)

include hb hs

/-- To store a value computes it, without code. -/
theorem reaches_setValue (v : Value) :
    (Lower.setValue n v).Reaches s (Computes s [n.id] n.id (done v s.supply)) := by
  obtain ⟨top, below, htop⟩ := List.exists_cons_of_ne_nil hb
  obtain ⟨scope, scopes, hscope⟩ := List.exists_cons_of_ne_nil hs
  refine ⟨_, rfl, computes_of_eq htop hscope ?_ ?_ rfl rfl rfl rfl rfl⟩
  · simp [done, htop]
  · simp [done, Lowering.supply, hscope]

/-- An instruction that computes into a register which it takes and constructs first. -/
theorem reaches_temporary (i : Reg → Instr) :
    (do
        let r ← Lower.temporary
        Lower.emit (i r)
        Lower.setValue n (.dynamic (.reg r)) : Lower Unit).Reaches s
      (Computes s [n.id] n.id
        (inObject (fun r => [.construct (.reg r) .integer, i r]) s.supply)) := by
  obtain ⟨top, below, htop⟩ := List.exists_cons_of_ne_nil hb
  obtain ⟨scope, scopes, hscope⟩ := List.exists_cons_of_ne_nil hs
  have htemporary : Lower.temporary.run s = .ok (.object s.registers.next,
      { s with
        registers := ⟨s.registers.next + 1⟩
        buffers := ⟨(top ++ #[.instr (.construct (.reg (.object s.registers.next)) .integer)]) ::
          below⟩ }) :=
    (Lower.run_bind_of_ok (p := Lower.freshRegister) rfl).trans
      (Lower.run_bind_of_ok (Lower.run_emit _ htop))
  refine .bind htemporary (.bind (Lower.run_emit _ rfl) ⟨_, rfl, ?_⟩)
  refine computes_of_eq htop hscope ?_ ?_ rfl rfl rfl rfl rfl
  · rw [Array.append_assoc]
    rfl
  · simp [inObject, Lowering.supply, hscope]

/-- A computation is written all the same behind a fold that failed and was reported. -/
theorem reaches_temporary_reported (errors : ErrorList) (notices : Array Notice) (i : Reg → Instr) :
    (do
        let r ← Lower.temporary
        Lower.emit (i r)
        Lower.setValue n (.dynamic (.reg r)) : Lower Unit).Reaches { s with errors, notices }
      (Computes s [n.id] n.id
        (inObject (fun r => [.construct (.reg r) .integer, i r]) s.supply)) :=
  (reaches_temporary (s := { s with errors, notices }) hb hs n i).mono fun _ h => h.reported

/-- An instruction for a new object register computes what it leaves there. -/
theorem reaches_inObject (i : Reg → Instr) :
    (do
        let r ← Lower.freshRegister
        Lower.emit (i r)
        Lower.setValue n (.dynamic (.reg r)) : Lower Unit).Reaches s
      (Computes s [n.id] n.id (inObject (fun r => [i r]) s.supply)) := by
  obtain ⟨top, below, htop⟩ := List.exists_cons_of_ne_nil hb
  obtain ⟨scope, scopes, hscope⟩ := List.exists_cons_of_ne_nil hs
  refine .bind (p := Lower.freshRegister) rfl (.bind (Lower.run_emit _ htop) ⟨_, rfl, ?_⟩)
  refine computes_of_eq htop hscope rfl ?_ rfl rfl rfl rfl rfl
  simp [inObject, Lowering.supply, hscope]

/-- An instruction for a new register for truth values computes what it leaves there. -/
theorem reaches_inBoolean (i : Reg → Instr) :
    (do
        let r ← Lower.freshBool
        Lower.emit (i r)
        Lower.setValue n (.dynamic (.reg r)) : Lower Unit).Reaches s
      (Computes s [n.id] n.id (inBoolean (fun r => [i r]) s.supply)) := by
  obtain ⟨top, below, htop⟩ := List.exists_cons_of_ne_nil hb
  obtain ⟨scope, scopes, hscope⟩ := List.exists_cons_of_ne_nil hs
  refine .bind (Lower.run_freshBool hscope) (.bind (Lower.run_emit _ htop) ⟨_, rfl, ?_⟩)
  refine computes_of_eq htop hscope ?_ ?_ rfl rfl rfl rfl ?_
  all_goals simp [inBoolean, Lowering.supply, hscope]

/-- A minus sign is folded or written. -/
theorem reaches_exitNegation (v : Value) :
    (Lower.exitNegation n v).Reaches s (Computes s [n.id] n.id (negated v s.supply)) := by
  cases v with
  | dynamic place => exact reaches_temporary hb hs n fun r => .neg r (.dynamic place)
  | int i => exact reaches_setValue hb hs n _
  | float x => exact reaches_setValue hb hs n _
  | str text =>
    refine .bind (Lower.run_report _ _ s) ?_
    exact reaches_temporary_reported hb hs n _ _ fun r => .neg r (.str text)

/-- Two operands are combined at run time unless they are constants that fold. -/
theorem reaches_arithmetic (op : String) (line : Int) (l r : Value) :
    (if l.isStatic && r.isStatic then
      match fold op l r with
      | .ok folded => Lower.setValue n folded
      | .error e => do
        Lower.report line (.folding e)
        Lower.exitBinary.atRunTime n op l r
    else Lower.exitBinary.atRunTime n op l r).Reaches s
      (Computes s [n.id] n.id (computed op l r s.supply)) := by
  -- both ways to the run time write the same instructions; one of them reports the failed fold before
  have hrun : ∀ e, fold op l r = .error e → (Lower.exitBinary.atRunTime n op l r).Reaches s
      (Computes s [n.id] n.id (computed op l r s.supply)) := by
    intro e he
    rw [computed, he]
    exact reaches_temporary hb hs n fun reg =>
      if op = "**" then .power reg l r else .arith reg op l r
  split
  · cases hfold : fold op l r with
    | ok w =>
      rw [computed, hfold]
      exact reaches_setValue hb hs n w
    | error e =>
      refine .bind (Lower.run_report _ _ s) ?_
      rw [computed, hfold]
      exact reaches_temporary_reported hb hs n _ _ fun reg =>
        if op = "**" then .power reg l r else .arith reg op l r
  · rename_i hstatic
    -- an operand of the run time never folds
    cases hfold : fold op l r with
    | error e => exact hrun e hfold
    | ok w => cases l <;> cases r <;> first | exact absurd rfl hstatic | cases hfold

/-! ## Exits

Each production is exited in a state in which the values of its parts are known, and computes its own
value from them. These are the cases of the induction over expressions. -/

/-- A literal has its value. -/
theorem reaches_exitLiteral (leaf : Constant) (id : Int) :
    (Lower.exit (Expr.constant id leaf).node).Reaches s
      (Computes s [id] id (done leaf.value s.supply)) := by
  refine .bind (Lower.run_child (i := 0) rfl leaf.node_ne_absent s) ?_
  have hliteral : literal leaf.node.token = .ok leaf.value := leaf.literal_eq
  rw [hliteral]
  exact reaches_setValue hb hs (Expr.constant id leaf).node leaf.value

/-- A variable is its own place. -/
theorem reaches_exitIdent (name : Name) (id : Int) :
    (Lower.exit (Expr.var id name).node).Reaches s
      (Computes s [id] id (done (.dynamic (.name name.text)) s.supply)) := by
  refine .bind (Lower.run_child (i := 0) rfl name.node_ne_absent s) ?_
  rw [Leaf.text_node]
  exact reaches_setValue hb hs (Expr.var id name).node _

/-- A global is fetched into a register. -/
theorem reaches_exitGlobalRef (name : Global) (id : Int) :
    (Lower.exit (Expr.global id name).node).Reaches s
      (Computes s [id] id ((Expr.global id name).lowered s.supply)) := by
  rw [Expr.lowered]
  exact reaches_inObject hb hs (Expr.global id name).node
    fun r => .getGlobal r (Lower.globalName name.node)

/-- Brackets hand on the value inside. -/
theorem reaches_exitParen (id : Int) (opening : Bracket .opening "(") {inner : Expr}
    (closing : Bracket .closing ")") {v : Value} (hv : s.value inner.id = some v) :
    (Lower.exit (Expr.paren id opening inner closing).node).Reaches s
      (Computes s [id] id (done v s.supply)) := by
  refine .bind (Lower.run_child (i := 1) rfl inner.node_ne_absent s) ?_
  refine .bind (Lower.run_valueOf (by rw [Expr.node_id, hv])) ?_
  exact reaches_setValue hb hs (Expr.paren id opening inner closing).node v

/-- A sign is applied to the value of its operand. -/
theorem reaches_exitUnary (id : Int) (sign : Sign) {operand : Expr} {v : Value}
    (hv : s.value operand.id = some v) :
    (Lower.exit (Expr.unary id sign operand).node).Reaches s
      (Computes s [id] id (signed sign.text v s.supply)) := by
  -- the parser takes these signs only
  have htext : sign.text = "-" ∨ sign.text = "!" ∨ sign.text = "not" := by
    have hsign := sign.isSign
    simp only [Parser.isSign, Token.isOp, Token.isKeyword, Bool.or_eq_true, Bool.and_eq_true,
      decide_eq_true_eq] at hsign
    obtain (⟨-, h⟩ | ⟨-, h⟩) | ⟨-, h⟩ := hsign
    · exact .inl h
    · exact .inr (.inl h)
    · exact .inr (.inr h)
  refine .bind (Lower.run_operator (i := 0) rfl rfl sign.node_ne_absent s) ?_
  refine .bind (Lower.run_child (i := 1) rfl operand.node_ne_absent s) ?_
  refine .bind (Lower.run_valueOf (by rw [Expr.node_id, hv])) ?_
  rw [Leaf.text_node]
  obtain h | h | h := htext
  · rw [h]
    exact reaches_exitNegation hb hs (Expr.unary id sign operand).node v
  · rw [h]
    exact reaches_inBoolean hb hs (Expr.unary id sign operand).node fun r => .not r v
  · rw [h]
    exact reaches_inBoolean hb hs (Expr.unary id sign operand).node fun r => .not r v

/-- An operator is applied to the values of its operands. -/
theorem reaches_exitOperation (id : Int) {left right : Expr} (op : BinaryOp) {l r : Value}
    (hl : s.value left.id = some l) (hr : s.value right.id = some r) :
    (Lower.exit (Expr.operation id left op right).node).Reaches s
      (Computes s [id] id (operated op l r s.supply)) := by
  have hl : s.value left.node.id = some l := by rw [Expr.node_id, hl]
  have hr : s.value right.node.id = some r := by rw [Expr.node_id, hr]
  obtain ⟨hkind, htext⟩ | ⟨hkind, test, htest⟩ := op.kind_cases
  -- an arithmetic operator
  · rw [operated_eq_computed htext, Expr.node, hkind]
    refine .bind (Lower.run_operator (i := 1) rfl rfl op.node_ne_absent s) ?_
    refine .bind (Lower.run_child (i := 0) rfl left.node_ne_absent s) ?_
    refine .bind (Lower.run_valueOf hl) ?_
    refine .bind (Lower.run_child (i := 2) rfl right.node_ne_absent s) ?_
    refine .bind (Lower.run_valueOf hr) ?_
    rw [Leaf.text_node]
    exact reaches_arithmetic hb hs (.mk id .binary left.token [left.node, op.node, right.node])
      op.text op.node.line l r
  -- comparisons and connectives differ in their kind only, which the exit does not look at
  · have hexit : Lower.exit (Expr.operation id left op right).node =
        Lower.exitBoolean (Expr.operation id left op right).node := by
      rw [Expr.node]
      obtain hkind | hkind := hkind <;> rw [hkind] <;> rfl
    have hindex : (Expr.operation id left op right).node.opIndex? = some 1 := by
      rw [Expr.node]
      obtain hkind | hkind := hkind <;> rw [hkind] <;> rfl
    rw [operated_eq_test htest, hexit]
    refine .bind (Lower.run_operator hindex rfl op.node_ne_absent s) ?_
    rw [Leaf.text_node, htest]
    refine .bind (Lower.run_child (i := 0) rfl left.node_ne_absent s) ?_
    refine .bind (Lower.run_valueOf hl) ?_
    refine .bind (Lower.run_child (i := 2) rfl right.node_ne_absent s) ?_
    refine .bind (Lower.run_valueOf hr) ?_
    exact reaches_inBoolean hb hs (Expr.operation id left op right).node fun reg => .test reg test l r

/-- An element is a place made of the array and the index. -/
theorem reaches_exitIndex (parts : ElementParts) {index : Expr} {v : Value}
    (hv : s.value index.id = some v) (hintegral : Integral v) :
    (Lower.exit (Expr.element parts index).node).Reaches s
      (Computes s [parts.id] parts.id (done (elementOf parts.array.text v) s.supply)) := by
  refine .bind (Lower.run_child (i := 0)
    (c := .mk parts.arrayId .ident parts.array.token [parts.array.node]) rfl nofun s) ?_
  refine .bind (Lower.run_child (i := 2) rfl index.node_ne_absent s) ?_
  refine .bind (Lower.run_valueOf (by rw [Expr.node_id, hv])) ?_
  have harray : (Node.mk parts.arrayId .ident parts.array.token [parts.array.node]).text =
      parts.array.text := by
    simp [Node.text, Node.texts]
  rw [harray]
  obtain ⟨i, rfl⟩ | ⟨place, rfl⟩ := hintegral
  · exact reaches_setValue hb hs (Expr.element parts index).node _
  · exact reaches_setValue hb hs (Expr.element parts index).node _

end Steps

/-! ## Calls

The arguments of a call are walked into a buffer of their own, which is placed in front of the call
when that is exited (`Lowering.placed`). Between the two, the fragment waits in a table. -/

/-- An argument is read off its node and the value that was stored for it. -/
theorem run_argument {s : Lowering} {v : Value} (id : Int) (name : Option Name) (token : Token)
    (value : Node) (h : s.value id = some v) :
    (do
      let v ← Lower.valueOf (argNode id name token value)
      if (argNode id name token value).children.length = 2 then
        let name ← Lower.child (argNode id name token value) 0
        return { value := v, name := some name.text }
      else return { value := v } : Lower Argument).run s = .ok (⟨v, name.map (·.text)⟩, s) := by
  cases name with
  | none => exact Lower.run_bind_of_ok (Lower.run_valueOf h)
  | some name =>
    refine (Lower.run_bind_of_ok (Lower.run_valueOf h)).trans ?_
    refine (Lower.run_bind_of_ok (Lower.run_child (i := 0) rfl name.node_ne_absent s)).trans ?_
    rw [Leaf.text_node]
    rfl

/-- The arguments are read off one by one. -/
theorem run_arguments {s : Lowering} (id : Int) (token : Token) :
    (a : Args) → {as : List Argument} → a.Stored s.value as →
      (Lower.arguments (.mk id .args token a.nodes)).run s = .ok (as, s)
  | .nil, as, h => by
    rw [Args.Stored] at h
    rw [h]
    rfl
  | .cons argId name value rest, as, h => by
    rw [Args.Stored] at h
    obtain ⟨v, tail, rfl, hv, htail⟩ := h
    have hrest := run_arguments id token rest htail
    unfold Lower.arguments at hrest ⊢
    rw [Node.children] at hrest ⊢
    rw [Args.nodes, List.mapM_cons]
    refine (Lower.run_bind_of_ok (run_argument argId name value.token value.node hv)).trans ?_
    exact Lower.run_bind_of_ok hrest

/-- What is known when the arguments of a call have been walked and their fragment is kept. -/
structure ArgsKept (s : Lowering) (tag : Tag) (a : Args) (r : Lowered (List Argument))
    (s' : Lowering) : Prop where
  passage : Passage s (Node.mk tag.id .args tag.token a.nodes).ids [] 0 s'
  fragment : s'.fragment =
    Function.update s.fragment tag.id (some (r.code.map Line.instr).toArray)
  supply : s'.supply = r.supply
  names : s'.names = s.names
  stored : a.Stored s'.value r.result

/-- The state in which the fragment of the arguments is placed and the call is noted. -/
def Lowering.placed (s' : Lowering) (top : Fragment) (below : List Fragment) (parts : CallParts)
    (code : List Instr) : Lowering :=
  { s' with
    fragments := s'.fragments.erase parts.args.id
    buffers := ⟨(top ++ (code.map Line.instr).toArray) :: below⟩
    functions := s'.functions.call parts.callee.text }

section Calls

variable {s s' : Lowering} {parts : CallParts} {a : Args} {r : Lowered (List Argument)}
  {top : Fragment} {below : List Fragment}

/-- Placing the fragment appends the code of the arguments. -/
theorem ArgsKept.passage_placed (h : ArgsKept s parts.args a r s')
    (htop : s.buffers.stack = top :: below) :
    Passage s (Node.mk parts.args.id .args parts.args.token a.nodes).ids (r.code.map .instr) 0
      (s'.placed top below parts r.code) := by
  refine ⟨?_, h.passage.scopes, h.passage.frames, h.passage.loops, h.passage.next,
    h.passage.stmtCall, h.passage.value⟩
  rw [htop, List.modifyHead_cons]
  rfl

/-- No other fragment is touched by it. -/
theorem ArgsKept.fragment_placed (h : ArgsKept s parts.args a r s')
    (hnone : s.fragment parts.args.id = none) :
    (s'.placed top below parts r.code).fragment = s.fragment := by
  have herase : (s'.placed top below parts r.code).fragment =
      Function.update s'.fragment parts.args.id none := fragment_erase s' parts.args.id
  rw [herase, h.fragment, Function.update_idem, ← hnone, Function.update_eq_self]

/-- The first half of a call: its arguments are placed and read. -/
theorem reaches_exitCall_of_placed {Q : Lowering → Prop} (h : ArgsKept s parts.args a r s')
    (htop : s.buffers.stack = top :: below)
    (hrest : (if parts.id = (s'.placed top below parts r.code).stmtCall then
        Lower.emit (.call none parts.callee.text r.result)
      else do
        let reg ← Lower.freshRegister
        Lower.emit (.call (some reg) parts.callee.text r.result)
        Lower.setValue (Expr.call parts a).node (.dynamic (.reg reg))).Reaches
      (s'.placed top below parts r.code) Q) :
    (Lower.exit (Expr.call parts a).node).Reaches s' Q := by
  have htop' : s'.buffers.stack = top :: below := by simpa using h.passage.top htop
  have hfragment : s'.fragment parts.args.id = some (r.code.map Line.instr).toArray := by
    rw [h.fragment, Function.update_self]
  refine .bind (Lower.run_child (i := 0) rfl parts.callee.node_ne_absent s') ?_
  refine .bind (Lower.run_child (i := 1) (c := .mk parts.args.id .args parts.args.token a.nodes) rfl
    nofun s') ?_
  refine .bind (Lower.run_take hfragment) ?_
  refine .bind (Lower.run_splice _ htop') ?_
  refine .bind (p := modify _) rfl ?_
  rw [Leaf.text_node]
  refine .bind (run_arguments parts.args.id parts.args.token a h.stored) ?_
  exact .bind (Lower.run_get _) hrest

/-- A call in an expression: its arguments are placed, and its result goes to a new register. -/
theorem reaches_exitCall (hready : Ready (Expr.call parts a).node.ids s)
    (h : ArgsKept s parts.args a r s') :
    (Lower.exit (Expr.call parts a).node).Reaches s'
      (Computes s (Expr.call parts a).node.ids parts.id
        (r.andThen fun as => inObject fun reg => [.call (some reg) parts.callee.text as])) := by
  obtain ⟨top, below, htop⟩ := List.exists_cons_of_ne_nil hready.buffers
  obtain ⟨f, hf⟩ := h.passage.scopes
  have hscopes : s'.scopes.stack ≠ [] := by
    rw [hf]
    exact modifyHead_ne_nil hready.scopes
  -- the result is used, since no statement is known to be this call
  have hcall : parts.id ≠ s'.stmtCall := by
    rw [h.passage.stmtCall]
    intro heq
    exact hready.stmtCall (by simp [Expr.node, Node.ids, ← heq])
  -- the fragment of the arguments is taken again, and the place for it was free before
  have hnone : s.fragment parts.args.id = none :=
    hready.fragment _ (by simp [Expr.node, Node.ids, Node.idsAll])
  refine reaches_exitCall_of_placed h htop (.of_neg hcall ?_)
  refine (reaches_inObject (s := s'.placed top below parts r.code) (List.cons_ne_nil _ _) hscopes
    (Expr.call parts a).node fun reg => .call (some reg) parts.callee.text r.result).mono ?_
  intro s'' hcomputes
  have hsupply : (s'.placed top below parts r.code).supply = r.supply := h.supply
  rw [hsupply] at hcomputes
  refine ⟨?_, ?_, hcomputes.supply, hcomputes.names.trans h.names, hcomputes.value⟩
  · have hpassage := (h.passage_placed htop).trans hcomputes.passage
    rw [← List.map_append] at hpassage
    refine hpassage.mono ?_
    intro i hi
    simp only [List.mem_append, List.mem_singleton] at hi
    obtain hi | hi := hi
    · refine List.mem_cons_of_mem _ (Node.ids_sublist_idsAll ?_ |>.subset hi)
      exact List.mem_cons_of_mem _ List.mem_cons_self
    · exact hi ▸ List.mem_cons_self
  · rw [hcomputes.fragment, h.fragment_placed hnone]

end Calls

/-! ## Walks of expressions

The induction on the expression. A part that was walked leaves the values of the others alone, since
ids are unique (`Ready`); so when the node is exited, all of its parts have their values. -/

section Visits

variable {s : Lowering}

/-- An expression without parts that are expressions. -/
theorem visits_single {e : Expr} {leaf : Leaf} {kind : Kind} (hindexed : e.Indexed)
    (hready : Ready e.node.ids s) (hnode : e.node = .mk e.id kind e.token [leaf.node])
    (henter : Lower.enter e.node = pure ())
    (hexit : (Lower.exit e.node).Reaches s (Computes s [e.id] e.id (e.lowered s.supply))) :
    ∃ s', Visits e.node s s' ∧ Computes s e.node.ids e.id (e.lowered s.supply) s' := by
  obtain ⟨s', hrun, hcomputes⟩ := hexit
  refine ⟨s', ?_, hcomputes.mono (by rw [hnode]; simp [Node.ids])⟩
  have hfits := Fits.expr hindexed hready
  rw [hnode] at henter hrun hfits ⊢
  exact .mk' hfits (by rw [henter]; rfl) (.cons (.leaf leaf s) (.nil s)) hrun

theorem id_mem_argNode (id : Int) (name : Option Name) (token : Token) (value : Node) :
    id ∈ (argNode id name token value).ids := by
  cases name <;> exact List.mem_cons_self

/-- The value of an argument can be entered if the argument can. -/
theorem Ready.value {id : Int} {name : Option Name} {token : Token} {value : Node}
    (h : Ready (argNode id name token value).ids s) : Ready value.ids s := by
  cases name with
  | none => exact h.children.mem (by simp)
  | some name => exact h.children.mem (by simp)

/-- An argument is walked like its value, and has the same value. -/
theorem visits_argNode {s₁ : Lowering} {id : Int} {name : Option Name} {value : Expr}
    {r : Lowered Value} (hready : Ready (argNode id name value.token value.node).ids s)
    (hvisits : Visits value.node s s₁) (hcomputes : Computes s value.node.ids value.id r s₁) :
    ∃ s', Visits (argNode id name value.token value.node) s s' ∧
      Computes s (argNode id name value.token value.node).ids id r s' := by
  have hready₁ := hready.value.passage hcomputes.passage fun i _ => by rw [hcomputes.fragment]
  have hvalue : s₁.value value.node.id = some r.result := by rw [Expr.node_id, hcomputes.value]
  have hexit : (Lower.exit (argNode id name value.token value.node)).Reaches s₁
      (Computes s₁ [id] id (done r.result s₁.supply)) := by
    cases name with
    | none =>
      refine .bind (Lower.run_child (i := 0) rfl value.node_ne_absent s₁) ?_
      refine .bind (Lower.run_valueOf hvalue) ?_
      exact reaches_setValue hready₁.buffers hready₁.scopes _ _
    | some name =>
      refine .bind (Lower.run_child (i := 1) rfl value.node_ne_absent s₁) ?_
      refine .bind (Lower.run_valueOf hvalue) ?_
      exact reaches_setValue hready₁.buffers hready₁.scopes _ _
  obtain ⟨s₂, hrun, hcomputes₂⟩ := hexit
  -- the argument passes the value of its expression on, and only adds ids of its own
  have hwhole := hcomputes.andThen (f := done) hcomputes₂
  rw [andThen_done] at hwhole
  cases name with
  | none =>
    refine ⟨s₂, .mk' (.other rfl rfl) rfl (.cons hvisits (.nil s₁)) hrun, hwhole.mono fun i => ?_⟩
    simp only [argNode, Node.ids, Node.idsAll, List.mem_append, List.mem_cons]
    grind
  | some name =>
    refine ⟨s₂, .mk' (.other rfl rfl) rfl (.cons (.leaf _ s) (.cons hvisits (.nil s₁))) hrun,
      hwhole.mono fun i => ?_⟩
    simp only [argNode, Node.ids, Node.idsAll, List.mem_append, List.mem_cons]
    grind

mutual

/-- Walking an expression computes its value. -/
theorem visits_expr (e : Expr) (hindexed : e.Indexed) {s : Lowering} (hready : Ready e.node.ids s) :
    ∃ s', Visits e.node s s' ∧ Computes s e.node.ids e.id (e.lowered s.supply) s' := by
  cases e with
  | constant id leaf =>
    exact visits_single hindexed hready rfl rfl
      (reaches_exitLiteral hready.buffers hready.scopes leaf id)
  | var id name =>
    exact visits_single hindexed hready rfl rfl
      (reaches_exitIdent hready.buffers hready.scopes name id)
  | global id name =>
    exact visits_single hindexed hready rfl rfl
      (reaches_exitGlobalRef hready.buffers hready.scopes name id)
  | paren id opening inner closing =>
    have hinner : Ready inner.node.ids s := hready.children.mem (by simp)
    obtain ⟨s₁, hvisits, hcomputes⟩ := visits_expr inner hindexed hinner
    have hready₁ := hinner.passage hcomputes.passage fun i _ => by rw [hcomputes.fragment]
    obtain ⟨s₂, hexit, hcomputes₂⟩ :=
      reaches_exitParen hready₁.buffers hready₁.scopes id opening closing hcomputes.value
    refine ⟨s₂, .mk' (.expr hindexed hready) rfl
      (.cons (.leaf _ s) (.cons hvisits (.cons (.leaf _ s₁) (.nil s₁)))) hexit, ?_⟩
    have hwhole := hcomputes.andThen (f := done) hcomputes₂
    rw [andThen_done] at hwhole
    refine hwhole.mono fun i => ?_
    simp only [Expr.node, Node.ids, Node.idsAll, List.mem_append, List.mem_cons]
    grind
  | unary id sign operand =>
    have hoperand : Ready operand.node.ids s := hready.children.mem (by simp)
    obtain ⟨s₁, hvisits, hcomputes⟩ := visits_expr operand hindexed hoperand
    have hready₁ := hoperand.passage hcomputes.passage fun i _ => by rw [hcomputes.fragment]
    obtain ⟨s₂, hexit, hcomputes₂⟩ :=
      reaches_exitUnary hready₁.buffers hready₁.scopes id sign hcomputes.value
    refine ⟨s₂, .mk' (.expr hindexed hready) rfl (.cons (.leaf _ s) (.cons hvisits (.nil s₁))) hexit,
      (hcomputes.andThen hcomputes₂).mono ?_⟩
    simp [Expr.node, Node.ids, Node.idsAll]
  | operation id left op right =>
    have hleft : Ready left.node.ids s := hready.children.mem (by simp)
    have hright : Ready right.node.ids s := hready.children.mem (by simp)
    obtain ⟨s₁, hvisits₁, hcomputes₁⟩ := visits_expr left hindexed.1 hleft
    have hright₁ := hright.passage hcomputes₁.passage fun i _ => by rw [hcomputes₁.fragment]
    obtain ⟨s₂, hvisits₂, hcomputes₂⟩ := visits_expr right hindexed.2 hright₁
    have hready₂ := hright₁.passage hcomputes₂.passage fun i _ => by rw [hcomputes₂.fragment]
    -- the right operand leaves the value of the left one alone
    have hvalue : s₂.value left.id = some (left.lowered s.supply).result := by
      rw [hcomputes₂.passage.value, hcomputes₁.value]
      intro hmem
      have hnodup := hready.children.nodup
      rw [Node.idsAll, List.nodup_append] at hnodup
      refine hnodup.2.2 _ left.id_mem_ids _ ?_ rfl
      exact (Node.ids_sublist_idsAll (by simp)).subset hmem
    obtain ⟨s₃, hexit, hcomputes₃⟩ := reaches_exitOperation hready₂.buffers hready₂.scopes id op
      hvalue hcomputes₂.value
    have henter : (Lower.enter (Expr.operation id left op right).node).run s = .ok ((), s) := by
      rw [Expr.node]
      obtain ⟨hkind, -⟩ | ⟨hkind | hkind, -⟩ := op.kind_cases <;> rw [hkind] <;> rfl
    refine ⟨s₃, .mk' (.expr hindexed hready) henter
      (.cons hvisits₁ (.cons (.leaf _ s₁) (.cons hvisits₂ (.nil s₂)))) hexit, ?_⟩
    refine (hcomputes₁.andThen
      (f := fun l s => (right.lowered s).andThen fun r => operated op l r)
      (hcomputes₂.andThen (f := fun r => operated op _ r) hcomputes₃)).mono fun i => ?_
    simp only [Expr.node, Node.ids, Node.idsAll, List.mem_append, List.mem_cons]
    grind
  | element parts index =>
    have harray : Ready (Expr.var parts.arrayId parts.array).node.ids s :=
      hready.children.mem List.mem_cons_self
    have hindex : Ready index.node.ids s := hready.children.mem (by simp)
    obtain ⟨s₁, hvisits₁, hcomputes₁⟩ := visits_single (e := .var parts.arrayId parts.array) trivial
      harray rfl rfl (reaches_exitIdent harray.buffers harray.scopes parts.array parts.arrayId)
    have hindex₁ := hindex.passage hcomputes₁.passage fun i _ => by rw [hcomputes₁.fragment]
    obtain ⟨s₂, hvisits₂, hcomputes₂⟩ := visits_expr index hindexed.2 hindex₁
    have hready₂ := hindex₁.passage hcomputes₂.passage fun i _ => by rw [hcomputes₂.fragment]
    obtain ⟨s₃, hexit, hcomputes₃⟩ := reaches_exitIndex hready₂.buffers hready₂.scopes parts
      hcomputes₂.value (integral_lowered index hindexed.2 hindexed.1 _)
    refine ⟨s₃, .mk' (.expr hindexed hready) rfl
      (.cons hvisits₁ (.cons (.leaf _ s₁) (.cons hvisits₂ (.cons (.leaf _ s₂) (.nil s₂))))) hexit, ?_⟩
    refine (hcomputes₁.andThen (f := fun _ s => (index.lowered s).andThen fun v =>
        done (elementOf parts.array.text v))
      (hcomputes₂.andThen (f := fun v => done (elementOf parts.array.text v)) hcomputes₃)).mono
        fun i => ?_
    simp only [Expr.node, Node.ids, Node.idsAll, List.mem_append, List.mem_cons]
    grind
  | call parts args =>
    have hargs : Ready (Node.mk parts.args.id .args parts.args.token args.nodes).ids s :=
      hready.children.mem (by simp)
    obtain ⟨s₁, hvisits, hkept⟩ := visits_argsNode parts.args args hindexed hargs
    obtain ⟨s₂, hexit, hcomputes⟩ := reaches_exitCall hready hkept
    exact ⟨s₂, .mk' (.expr hindexed hready) rfl (.cons (.leaf _ s) (.cons hvisits (.nil s₁))) hexit,
      hcomputes⟩

/-- Walking an argument list computes the values of the arguments and keeps their instructions. -/
theorem visits_argsNode (tag : Tag) (a : Args) (hindexed : a.Indexed) {s : Lowering}
    (hready : Ready (Node.mk tag.id .args tag.token a.nodes).ids s) :
    ∃ s', Visits (.mk tag.id .args tag.token a.nodes) s s' ∧
      ArgsKept s tag a (a.lowered s.supply) s' := by
  obtain ⟨s₁, hvisits, hcomputes⟩ := visits_args a hindexed hready.children.push
  have hpassage := hcomputes.passage.stash (.mk tag.id .args tag.token a.nodes)
  refine ⟨_, .mk' (.other rfl rfl) rfl hvisits (run_stash hcomputes.passage _),
    hpassage.mono (List.subset_cons_self ..), ?_, hcomputes.supply, hcomputes.names,
    hcomputes.stored⟩
  rw [fragment_stashed, hcomputes.fragment]
  rfl

/-- Arguments are walked one after the other. -/
theorem visits_args (a : Args) (hindexed : a.Indexed) {s : Lowering}
    (hready : Ready (Node.idsAll a.nodes) s) :
    ∃ s', VisitsAll a.nodes s s' ∧ ComputesArgs s a (a.lowered s.supply) s' := by
  cases a with
  | nil => exact ⟨s, .nil s, Passage.refl s, rfl, rfl, rfl, rfl⟩
  | cons id name value rest =>
    have hargument : Ready (argNode id name value.token value.node).ids s :=
      hready.mem List.mem_cons_self
    have hrest : Ready (Node.idsAll rest.nodes) s :=
      hready.sublist (List.sublist_append_right ..)
    obtain ⟨s₁, hvisits₁, hcomputes₁⟩ := visits_expr value hindexed.1 hargument.value
    obtain ⟨s₂, hvisits₂, hcomputes₂⟩ := visits_argNode hargument hvisits₁ hcomputes₁
    -- what was written for the first argument is none of the fragments of the others
    have hrest₂ := hrest.passage hcomputes₂.passage fun i _ => by rw [hcomputes₂.fragment]
    obtain ⟨s₃, hvisits₃, hcomputes₃⟩ := visits_args rest hindexed.2 hrest₂
    rw [hcomputes₂.supply] at hcomputes₃
    refine ⟨s₃, .cons hvisits₂ hvisits₃, ?_, hcomputes₃.fragment.trans hcomputes₂.fragment,
      hcomputes₃.supply, hcomputes₃.names.trans hcomputes₂.names, ?_⟩
    · have hpassage := hcomputes₂.passage.trans hcomputes₃.passage
      rw [← List.map_append] at hpassage
      simpa [Args.lowered, andThen, done, Args.nodes, Node.idsAll] using hpassage
    · -- the arguments after the first leave its value alone
      refine ⟨_, _, rfl, ?_, hcomputes₃.stored⟩
      rw [hcomputes₃.passage.value, hcomputes₂.value]
      intro hmem
      have hnodup := hready.nodup
      rw [Args.nodes, Node.idsAll, List.nodup_append] at hnodup
      exact hnodup.2.2 _ (id_mem_argNode ..) _ hmem rfl

end

end Visits

end ScriptPir

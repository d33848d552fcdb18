import ScriptPir.Proofs.Registers

/-!
# Registers are read as they were written

An instruction reads the values of some nodes (`Node.operands`). If a register stands in such a value, it
must still hold what the code of that node left in it. Object registers start again with every
assignment, and fragments are placed elsewhere than they were made, so this is a property of the
assembled subroutine and not only of the walk:

* `Live E before c r` — at the end of some lines, the register `r` was written by the last instruction
  for the node `c`, and nothing behind that is a label, a jump or another write to it;
* `Guarded E root lines` — wherever an instruction stands in some lines, the registers in its operands
  are live there;
* `registers_of_parse` — every subroutine of a parsed source is guarded, and registers are not taken
  twice.
-/

namespace ScriptPir

open Shape

/-! ## Registers that are live

What is to be shown is a property of assembled lines. It is stated backwards from an instruction: in
the lines before it, find the last one that wrote the register, and see that everything in between
spares it. -/

/-- The nodes whose values are operands of the instruction that is emitted for a node. -/
def Node.operands : Node → List Node
  | .mk _ .assign _ [_, _, v] | .mk _ .globalSet _ [_, _, v] | .mk _ .unary _ [_, v]
  | .mk _ .returnStmt _ [v] => [v]
  | .mk _ .indexAssign _ [l, _, r] | .mk _ .binary _ [l, _, r] | .mk _ .compare _ [l, _, r]
  | .mk _ .logic _ [l, _, r] => [l, r]
  | .mk _ .ifStmt _ (c :: _) | .mk _ .unlessStmt _ (c :: _) | .mk _ .elsifArm _ (c :: _)
  | .mk _ .whileLoop _ (c :: _) | .mk _ .forLoop _ (_ :: c :: _) => c.children
  | .mk _ .call _ [_, args] | .mk _ .callStmt _ [.mk _ .call _ [_, args]] =>
    args.children.filterMap (·.children.getLast?)
  | _ => []

section Liveness

variable (E : Emission) (root : Node)

/-- At the end of some lines, a register holds what the last instruction for a node wrote: behind it
there are only instructions that are no jumps and leave the register alone. -/
def Live (before : List Line) (c : Node) (r : Reg) : Prop :=
  ∃ pre code i between, before = pre ++ instrs (code ++ i :: between) ∧
    E.code c.id = code ++ [i] ∧ i.written? = some r ∧ ∀ j ∈ between, j.Spares r

/-- An instruction that follows some lines was emitted for a node, and finds in place what it reads. -/
structure Serves (before : List Line) (n : Node) (i : Instr) : Prop where
  emitted : n.kind.isExpr = true ∨ n.kind.isSimple = true →
    ∃ pre code, before = pre ++ instrs code ∧ E.code n.id = code ++ [i]
  operands : i.operands = n.operands.map (E.value ·.id)
  live : ∀ c ∈ n.operands, ∀ r ∈ (E.value c.id).regs, Live E before c r

/-- Every instruction among some lines finds in place what it reads. -/
def Guarded (lines : List Line) : Prop :=
  ∀ before i after, lines = before ++ .instr i :: after →
    i.operands = [] ∨ ∃ n ∈ root.nodesOnto [], Serves E before n i

/-- The registers in the values of some nodes are taken and live. -/
def Held (s : Supply) (before : List Line) (cs : List Node) : Prop :=
  ∀ c ∈ cs, ∀ r ∈ (E.value c.id).regs, s.Below r ∧ Live E before c r

end Liveness

section Lines

variable {E : Emission} {root : Node} {before xs ys : List Line} {code : List Instr}

/-- A register stays live when lines are put in front. -/
theorem Live.extend {c : Node} {r : Reg} (h : Live E before c r) (pre : List Line) :
    Live E (pre ++ before) c r := by
  obtain ⟨start, code, i, between, rfl, hcode⟩ := h
  exact ⟨pre ++ start, code, i, between, (List.append_assoc ..).symm, hcode⟩

/-- A register stays live behind code that spares it. -/
theorem Live.spare {c : Node} {r : Reg} (h : Live E before c r) (hspares : ∀ i ∈ code, i.Spares r) :
    Live E (before ++ instrs code) c r := by
  obtain ⟨start, code', i, between, rfl, hcode, hi, hbetween⟩ := h
  refine ⟨start, code', i, between ++ code, ?_, hcode, hi,
    List.forall_mem_append.mpr ⟨hbetween, hspares⟩⟩
  rw [List.append_assoc, ← instrs_append, List.append_assoc, List.cons_append]

/-- An instruction finds in place what it reads when lines are put in front. -/
theorem Serves.extend {n : Node} {i : Instr} (h : Serves E before n i) (pre : List Line) :
    Serves E (pre ++ before) n i := by
  refine ⟨fun hkind => ?_, h.operands, fun c hc r hr => (h.live c hc r hr).extend pre⟩
  obtain ⟨start, code, rfl, hcode⟩ := h.emitted hkind
  exact ⟨pre ++ start, code, (List.append_assoc ..).symm, hcode⟩

/-- If two parts are guarded, they are so together: what the second reads is written in the second. -/
theorem Guarded.append (hx : Guarded E root xs) (hy : Guarded E root ys) :
    Guarded E root (xs ++ ys) := by
  intro before i after hlines
  obtain ⟨rest, hxs, -⟩ | ⟨rest, rfl, hys⟩ := split_append hlines
  · exact hx before i rest hxs
  · refine (hy rest i after hys).imp_right ?_
    rintro ⟨n, hn, hserves⟩
    exact ⟨n, hn, hserves.extend xs⟩

/-- Lines that read nothing. -/
theorem guarded_silent (h : ∀ i, .instr i ∈ xs → i.operands = []) : Guarded E root xs := by
  rintro before i after rfl
  exact .inl (h i (by simp))

/-- Code that reads nothing is guarded. -/
theorem guarded_instrs (h : ∀ i ∈ code, i.operands = []) : Guarded E root (instrs code) := by
  refine guarded_silent fun i hi => ?_
  obtain ⟨j, hj, heq⟩ := List.mem_map.mp hi
  cases heq
  exact h i hj

/-- An instruction reads the values of nodes whose code stands before it. -/
theorem guarded_last {n : Node} (hn : n ∈ root.nodesOnto []) {i : Instr} {s : Supply}
    (h : Guarded E root (instrs code))
    (hemitted : n.kind.isExpr = true ∨ n.kind.isSimple = true → E.code n.id = code ++ [i])
    (hoperands : i.operands = n.operands.map (E.value ·.id))
    (hheld : Held E s (instrs code) n.operands) : Guarded E root (instrs (code ++ [i])) := by
  intro before j after hlines
  rw [instrs_append] at hlines
  obtain ⟨rest, hcode, -⟩ | ⟨rest, rfl, hlast⟩ := split_append hlines
  · exact h before j rest hcode
  · -- behind the code of the operands there is one line only
    obtain ⟨rfl, hj⟩ : rest = [] ∧ j = i := by
      cases rest with
      | nil => exact ⟨rfl, (Line.instr.inj (List.cons.inj hlast).1).symm⟩
      | cons line rest => simp at hlast
    rw [hj, List.append_nil]
    exact .inr ⟨n, hn, fun hkind => ⟨[], code, rfl, hemitted hkind⟩, hoperands,
      fun c hc r hr => (hheld c hc r hr).2⟩

/-- Code that writes free registers only leaves alone what is held. -/
theorem Held.confined {α : Type} {s : Supply} {cs : List Node} {x : Lowered α} (h : Held E s before cs)
    (hx : Confined s x) (hplain : Plain x.code) : Held E x.supply (before ++ instrs x.code) cs := by
  intro c hc r hr
  obtain ⟨hbelow, hlive⟩ := h c hc r hr
  exact ⟨hx.grows r hbelow, hlive.spare (hx.spares hplain hbelow)⟩

theorem Held.append {s : Supply} {cs cs' : List Node} (h : Held E s before cs)
    (h' : Held E s before cs') : Held E s before (cs ++ cs') :=
  List.forall_mem_append.mpr ⟨h, h'⟩

/-- The code that an operation adds to that of its operands. -/
theorem guarded_operates {n : Node} (hn : n ∈ root.nodesOnto []) {s : Supply} {x : Lowered Value}
    {values : List Value} (h : Guarded E root (instrs code)) (hcode : E.code n.id = code ++ x.code)
    (hplain : Plain x.code) (hoperates : Operates values s x)
    (hvalues : n.operands.map (E.value ·.id) = values) (hheld : Held E s (instrs code) n.operands) :
    Guarded E root (instrs (code ++ x.code)) := by
  have hspares : ∀ r, s.Below r → ∀ i ∈ x.code, i.Spares r := fun r hr =>
    hoperates.confined.spares hplain hr
  have hreads := hoperates.reads
  generalize x.code = more at hcode hspares hreads
  -- an operation emits nothing, or sets up its result and reads in its last instruction
  cases hreads with
  | nothing =>
    rw [List.append_nil]
    exact h
  | last setup i hsetup hi =>
    have hall : Guarded E root (instrs (code ++ setup)) := by
      rw [instrs_append]
      exact h.append (guarded_instrs hsetup)
    rw [← List.append_assoc] at hcode ⊢
    refine guarded_last hn hall (fun _ => hcode) (hi.trans hvalues.symm) (s := s) fun c hc r hr => ?_
    obtain ⟨hbelow, hlive⟩ := hheld c hc r hr
    rw [instrs_append]
    refine ⟨hbelow, hlive.spare fun j hj => ?_⟩
    exact hspares r hbelow j (List.mem_append_left _ hj)

end Lines

/-! ## Expressions

An expression reads the values of its operands in its last instruction. The code of the right operand
stands between that and the code of the left one, so it must spare the registers of the left one: it
takes later ones. -/

namespace Shape

/-- The trees of the values of arguments. -/
def Args.values : Args → List Node
  | .nil => []
  | .cons _ _ value rest => value.node :: rest.values

/-- The last child of an argument is its value, whether it is named or not. -/
theorem Args.filterMap_nodes (a : Args) : a.nodes.filterMap (·.children.getLast?) = a.values := by
  match a with
  | .nil => rfl
  | .cons id name value rest =>
    rw [Args.nodes, Args.values, ← rest.filterMap_nodes]
    cases name <;> rfl

/-- The values of arguments are there. -/
theorem Args.value_ne_absent (a : Args) : ∀ m ∈ a.values, m ≠ .absent := by
  match a with
  | .nil => simp [Args.values]
  | .cons id name value rest =>
    exact List.forall_mem_cons.mpr ⟨value.node_ne_absent, rest.value_ne_absent⟩

/-- Simple statements are there. -/
theorem Simple.node_ne_absent (x : Simple) : x.node ≠ .absent := by
  cases x with
  | assignment a => cases a <;> simp [Simple.node, Assignment.node]
  | globalSet | require | target | call => simp [Simple.node]

/-- Statements are there. -/
theorem Stmt.node_ne_absent (x : Stmt) : x.node ≠ .absent := by
  cases x with
  | simple x => exact x.node_ne_absent
  | ret tag value => cases value <;> simp [Stmt.node]
  | brk | branch | whileLoop | forLoop => simp [Stmt.node]

/-- All statements of a body are there. -/
theorem Stmts.nodes_ne_absent (b : Stmts) : ∀ m ∈ b.nodes, m ≠ .absent := by
  match b with
  | .nil => simp [Stmts.nodes]
  | .cons first rest => exact List.forall_mem_cons.mpr ⟨first.node_ne_absent, rest.nodes_ne_absent⟩

/-- Further arms are there. -/
theorem Arms.nodes_ne_absent (a : Arms) : ∀ m ∈ a.nodes, m ≠ .absent := by
  match a with
  | .none => simp [Arms.nodes]
  | .last .. => simp [Arms.nodes]
  | .elsif _ _ _ _ rest => exact List.forall_mem_cons.mpr ⟨by simp, rest.nodes_ne_absent⟩

theorem BinaryOp.operands_node (id : Int) (token : Token) (l r : Node) (op : BinaryOp) :
    (Node.mk id op.op.kind token [l, op.node, r]).operands = [l, r] := by
  obtain ⟨hkind, -⟩ | ⟨hkind | hkind, -⟩ := op.kind_cases <;> rw [hkind] <;> rfl

end Shape

section Expressions

variable {E : Emission} {root : Node}

/-- Behind its code, the value of an expression is held. -/
theorem held_expr {e : Expr} {s : Supply} (h : e.Emitted E s) (pre : List Line) :
    Held E (e.lowered s).supply (pre ++ instrs (e.lowered s).code) [e.node] := by
  intro c hc r hr
  cases List.mem_singleton.mp hc
  obtain ⟨hcode, hvalue⟩ := h.at
  rw [Expr.node_id, hvalue] at hr
  have hdelivers := delivers_lowered e s
  obtain ⟨code, i, hlast, hi⟩ := hdelivers.last r hr
  refine ⟨hdelivers.below r hr, pre, code, i, [], by rw [hlast], ?_, hi, by simp⟩
  rw [Expr.node_id, hcode, hlast]

/-- The code of a second expression leaves alone the value of the first. -/
theorem held_pair {l r : Expr} {s : Supply} (hl : l.Emitted E s)
    (hr : r.Emitted E (l.lowered s).supply) :
    Held E (r.lowered (l.lowered s).supply).supply
      (instrs ((l.lowered s).code ++ (r.lowered (l.lowered s).supply).code)) [l.node, r.node] := by
  rw [instrs_append]
  exact ((held_expr hl []).confined (confined_lowered r _) (plain_lowered r _)).append (held_expr hr _)

/-- The values of two sides are what they are lowered to. -/
theorem values_pair {l r : Expr} {s s' : Supply} (hl : l.Emitted E s) (hr : r.Emitted E s') :
    [l.node, r.node].map (E.value ·.id) = [(l.lowered s).result, (r.lowered s').result] := by
  rw [← hl.at.2, ← hr.at.2, ← Expr.node_id, ← Expr.node_id]
  rfl

/-- The code of arguments is that of the first one, then that of the others. -/
theorem code_cons (id : Int) (name : Option Shape.Name) (value : Expr) (rest : Args) (s : Supply) :
    ((Args.cons id name value rest).lowered s).code =
      (value.lowered s).code ++ (rest.lowered (value.lowered s).supply).code := by
  show _ ++ (_ ++ []) = _
  rw [List.append_nil]

/-- Behind the code of arguments, the values of all of them are held. -/
theorem held_args (a : Args) {s : Supply} (h : a.Emitted E s) (pre : List Line) :
    Held E (a.lowered s).supply (pre ++ instrs (a.lowered s).code) a.values ∧
      (a.lowered s).result.map (·.value) = a.values.map (E.value ·.id) := by
  match a with
  | .nil => exact ⟨by simp [Held, Args.values], rfl⟩
  | .cons id name value rest =>
    have hfirst := (held_expr h.1 pre).confined (confined_loweredArgs rest _) (plain_loweredArgs rest _)
    obtain ⟨hrest, hvalues⟩ := held_args rest h.2 (pre ++ instrs (value.lowered s).code)
    refine ⟨?_, ?_⟩
    · rw [code_cons, instrs_append, ← List.append_assoc]
      exact hfirst.append hrest
    · show (value.lowered s).result :: List.map _ _ = E.value value.node.id :: _
      rw [hvalues, Expr.node_id, h.1.at.2]

/-- The values of arguments belong to the tree that the call belongs to. -/
theorem mem_values {parts : CallParts} {args : Args}
    (h : (Expr.call parts args).node ∈ root.nodesOnto []) :
    ∀ m ∈ args.values, m ∈ root.nodesOnto [] := by
  intro m hm
  have hargs : .mk parts.args.id .args parts.args.token args.nodes ∈ root.nodesOnto [] :=
    Node.mem_nodes_child h (by simp [Expr.node, Node.children]) (by simp)
  have habsent := args.value_ne_absent m hm
  rw [← Args.filterMap_nodes] at hm
  obtain ⟨argument, hargument, hlast⟩ := List.mem_filterMap.mp hm
  have hne : argument ≠ .absent := by
    rintro rfl
    cases hlast
  exact Node.mem_nodes_child (Node.mem_nodes_child hargs hargument hne) (List.mem_of_getLast? hlast)
    habsent

mutual

/-- The operands of an expression are held until it is computed. -/
theorem guarded_expr (e : Expr) {s : Supply} (hn : e.node ∈ root.nodesOnto []) (h : e.Emitted E s) :
    Guarded E root (instrs (e.lowered s).code) := by
  have hcode : E.code e.node.id = (e.lowered s).code := by
    rw [Expr.node_id]
    exact h.at.1
  -- an operation reads the values of its operands, whose code stands right before it
  cases e with
  | constant | var => exact guarded_silent (by simp [Expr.lowered, Lowered.done])
  | global => exact guarded_silent (by simp [Expr.lowered, Lowered.inObject, Instr.operands])
  | paren id opening inner closing =>
    have hinner : inner.node ∈ root.nodesOnto [] :=
      Node.mem_nodes_child hn (by simp [Expr.node, Node.children]) inner.node_ne_absent
    exact guarded_expr inner hinner h.2
  | unary id sign operand =>
    have hoperand : operand.node ∈ root.nodesOnto [] :=
      Node.mem_nodes_child hn (by simp [Expr.node, Node.children]) operand.node_ne_absent
    refine guarded_operates hn (guarded_expr operand hoperand h.2) hcode (plain_signed _ _ _)
      (operates_signed ..) ?_ (held_expr h.2 [])
    show [E.value operand.node.id] = _
    rw [Expr.node_id, h.2.at.2]
  | operation id left op right =>
    have hleft : left.node ∈ root.nodesOnto [] :=
      Node.mem_nodes_child hn (by simp [Expr.node, Node.children]) left.node_ne_absent
    have hright : right.node ∈ root.nodesOnto [] :=
      Node.mem_nodes_child hn (by simp [Expr.node, Node.children]) right.node_ne_absent
    have hoperands : (Expr.operation id left op right).node.operands = [left.node, right.node] :=
      op.operands_node ..
    have hboth : Guarded E root
        (instrs ((left.lowered s).code ++ (right.lowered (left.lowered s).supply).code)) := by
      rw [instrs_append]
      exact (guarded_expr left hleft h.2.1).append (guarded_expr right hright h.2.2)
    -- both operands come first, then what combines them
    have hassoc : ((Expr.operation id left op right).lowered s).code = _ :=
      (List.append_assoc ..).symm
    rw [hassoc] at hcode ⊢
    refine guarded_operates hn hboth hcode (plain_operated _ _ _ _) (operates_operated ..) ?_ ?_
    · rw [hoperands]
      exact values_pair h.2.1 h.2.2
    · rw [hoperands]
      exact held_pair h.2.1 h.2.2
  | element parts index =>
    have hindex : index.node ∈ root.nodesOnto [] :=
      Node.mem_nodes_child hn (by simp [Expr.node, Node.children]) index.node_ne_absent
    have hsame : ((Expr.element parts index).lowered s).code = (index.lowered s).code :=
      List.append_nil _
    rw [hsame]
    exact guarded_expr index hindex h.2
  | call parts args =>
    have hoperands : (Expr.call parts args).node.operands = args.values := args.filterMap_nodes
    obtain ⟨hheld, hvalues⟩ := held_args args h.2 []
    rw [← hoperands] at hheld hvalues
    refine guarded_operates hn (guarded_args args (mem_values hn) h.2) hcode ?_ (operates_call ..)
      hvalues.symm hheld
    exact plain_cons rfl plain_nil

/-- The code of arguments is guarded. -/
theorem guarded_args (a : Args) {s : Supply} (hn : ∀ m ∈ a.values, m ∈ root.nodesOnto [])
    (h : a.Emitted E s) : Guarded E root (instrs (a.lowered s).code) := by
  cases a with
  | nil => exact guarded_silent (by simp [Args.lowered, Lowered.done])
  | cons id name value rest =>
    have hvalue := guarded_expr value (hn _ List.mem_cons_self) h.1
    have hrest := guarded_args rest (fun m hm => hn m (List.mem_cons_of_mem _ hm)) h.2
    rw [code_cons, instrs_append]
    exact hvalue.append hrest

end

end Expressions

/-! ## Statements

A statement starts again from the first register, which does no harm: the code before it is read by
nothing behind it. Conditions are read right behind their code, before the label of the arm or the
body. -/

section Statements

variable {E : Emission} {root : Node}

/-- A declaration reads nothing. -/
theorem guarded_declaration (σ : Spot) (x : String) {construct : List Instr}
    (h : ∀ i ∈ construct, i.operands = []) :
    Guarded E root (instrs (σ.declaration x construct)) := by
  refine guarded_instrs fun i hi => ?_
  unfold Spot.declaration at hi
  split at hi
  · cases hi
  · obtain rfl | hi := List.mem_cons.mp hi
    · rfl
    · exact h i hi

/-- An instruction that reads the value of one expression, whose code stands right before it. -/
theorem guarded_value (pre : List Instr) {n : Node} (hn : n ∈ root.nodesOnto []) {e : Expr}
    {s : Supply} (he : e.node ∈ root.nodesOnto []) (h : e.Emitted E s) {i : Instr}
    (hpre : Guarded E root (instrs pre)) (hoperands : n.operands = [e.node])
    (hi : i.operands = [(e.lowered s).result])
    (hcode : n.kind.isExpr = true ∨ n.kind.isSimple = true →
      E.code n.id = pre ++ (e.lowered s).code ++ [i]) :
    Guarded E root (instrs (pre ++ (e.lowered s).code ++ [i])) := by
  have hall : Guarded E root (instrs (pre ++ (e.lowered s).code)) := by
    rw [instrs_append]
    exact hpre.append (guarded_expr e he h)
  refine guarded_last hn hall hcode ?_ (s := (e.lowered s).supply) ?_
  · rw [hi, hoperands, ← h.at.2, ← Expr.node_id]
    rfl
  · rw [hoperands, instrs_append]
    exact held_expr h _

/-- The code of an assignment is guarded. -/
theorem guarded_assignment {a : Assignment} {σ : Spot} (hn : a.node ∈ root.nodesOnto [])
    (hcode : E.code a.node.id = a.code σ) (h : (Simple.assignment a).PartsEmitted E σ) :
    Guarded E root (instrs (a.code σ)) := by
  -- an assignment reads the value that was computed last
  cases a with
  | assign id name op value =>
    have hvalue : value.node ∈ root.nodesOnto [] :=
      Node.mem_nodes_child hn (by simp [Assignment.node, Node.children]) value.node_ne_absent
    refine guarded_value _ hn hvalue h ?_ rfl ?_ fun _ => hcode
    · split
      · exact guarded_declaration σ _ (by simp [Instr.operands])
      · exact guarded_silent (by simp)
    · split <;> rfl
  | arrayInit id name op =>
    rw [Assignment.code, instrs_append]
    exact (guarded_declaration σ _ (by simp)).append (guarded_silent (by simp [Instr.operands]))
  | store id target index op value =>
    have hplace : (Expr.element target index).node ∈ root.nodesOnto [] :=
      Node.mem_nodes_child hn (by simp [Assignment.node, Node.children]) (Expr.node_ne_absent _)
    have hvalue : value.node ∈ root.nodesOnto [] :=
      Node.mem_nodes_child hn (by simp [Assignment.node, Node.children]) value.node_ne_absent
    refine guarded_last hn ?_ (fun _ => hcode) (values_pair h.1 h.2).symm (held_pair h.1 h.2)
    rw [instrs_append]
    exact (guarded_expr _ hplace h.1).append (guarded_expr value hvalue h.2)
  | globalGet id name op global =>
    rw [Assignment.code, instrs_append]
    exact (guarded_declaration σ _ (by simp [Instr.operands])).append
      (guarded_silent (by simp [Instr.operands]))

/-- The code of a simple statement is guarded. -/
theorem guarded_simple {x : Simple} {σ : Spot} (hn : x.node ∈ root.nodesOnto [])
    (h : (Leg.simple x).Emitted E σ) : Guarded E root (instrs (E.code x.node.id)) := by
  obtain ⟨hcode, hparts⟩ := h
  rw [hcode]
  cases x with
  | assignment a => exact guarded_assignment hn hcode hparts
  | globalSet id global op value =>
    have hvalue : value.node ∈ root.nodesOnto [] :=
      Node.mem_nodes_child hn (by simp [Simple.node, Node.children]) value.node_ne_absent
    exact guarded_value [] hn hvalue hparts (guarded_silent (by simp)) rfl rfl fun _ => hcode
  | require => exact guarded_silent (by simp [Simple.code])
  | target id code =>
    refine guarded_instrs fun i hi => ?_
    obtain ⟨line, -, rfl⟩ := List.mem_map.mp hi
    rfl
  | call id parts args =>
    -- the call is the child whose operands are the arguments
    have hcall : (Expr.call parts args).node ∈ root.nodesOnto [] :=
      Node.mem_nodes_child hn (by simp [Simple.node, Node.children]) (Expr.node_ne_absent _)
    have hoperands : (Simple.call id parts args).node.operands = args.values := args.filterMap_nodes
    obtain ⟨hheld, hvalues⟩ := held_args args hparts []
    rw [← hoperands] at hheld hvalues
    exact guarded_last hn (guarded_args args (mem_values hcall) hparts) (fun _ => hcode) hvalues hheld

/-- The statements of a block are nodes of the tree, if the block is one. -/
theorem mem_block {tags : BlockTags} {b : Stmts} (h : tags.node b.nodes ∈ root.nodesOnto []) :
    ∀ m ∈ b.nodes, m ∈ root.nodesOnto [] := by
  intro m hm
  have hlist : .mk tags.list.id .stmtList tags.list.token b.nodes ∈ root.nodesOnto [] :=
    Node.mem_nodes_child h (by simp [BlockTags.node, Node.children]) (by simp)
  exact Node.mem_nodes_child hlist hm (b.nodes_ne_absent m hm)

/-- A condition is computed right before the branch on it. -/
theorem guarded_branch {n : Node} (hn : n ∈ root.nodesOnto []) {cond : Cond} {σ : Spot}
    (hcond : cond.node ∈ root.nodesOnto []) (h : (Leg.value cond.expr).Emitted E σ)
    (hoperands : n.operands = cond.node.children)
    (hkind : n.kind.isExpr = false ∧ n.kind.isSimple = false) (negated : Bool) (l : Label) :
    Guarded E root (instrs (E.code cond.expr.id) ++
      [.instr (.branch negated (E.value cond.expr.id) l)]) := by
  have hexpr : cond.expr.node ∈ root.nodesOnto [] :=
    Node.mem_nodes_child hcond (by simp [Cond.node, Node.children]) (Expr.node_ne_absent _)
  obtain ⟨hcode, hvalue⟩ := h.at
  rw [hcode, hvalue]
  have hguarded := guarded_value [] hn hexpr h (guarded_silent (by simp)) hoperands
    (i := .branch negated _ l) rfl (by simp [hkind])
  rw [List.nil_append, instrs_append] at hguarded
  exact hguarded

/-- An arm is guarded if its body is. -/
theorem guarded_armLines {n : Node} (hn : n ∈ root.nodesOnto []) {cond : Cond} {σ : Spot}
    (hcond : cond.node ∈ root.nodesOnto []) (h : (Leg.value cond.expr).Emitted E σ)
    (hoperands : n.operands = cond.node.children)
    (hkind : n.kind.isExpr = false ∧ n.kind.isSimple = false) {negated : Bool}
    {onTrue onFalse : Label} {finish : Option Label} {body : List Line} (hbody : Guarded E root body) :
    Guarded E root (armLines E negated cond onTrue onFalse finish body) := by
  have hbranch := guarded_branch hn hcond h hoperands hkind negated onTrue
  have htop : Guarded E root [.instr (.jump onFalse), .label onTrue] :=
    guarded_silent (by simp [Instr.operands])
  have hend : Guarded E root (finish.toList.map (.instr <| .jump ·) ++ [.label onFalse]) := by
    cases finish <;> exact guarded_silent (by simp [Instr.operands])
  have hall := (hbranch.append htop).append (hbody.append hend)
  simpa [armLines] using hall

/-- A loop is guarded if its body and its step are. -/
theorem guarded_loopLines {n : Node} (hn : n ∈ root.nodesOnto []) {cond : Cond} {σ : Spot}
    (hcond : cond.node ∈ root.nodesOnto []) (h : (Leg.value cond.expr).Emitted E σ)
    (hoperands : n.operands = cond.node.children)
    (hkind : n.kind.isExpr = false ∧ n.kind.isSimple = false) {top out : Label}
    {body step : List Line} (hbody : Guarded E root body) (hstep : Guarded E root step) :
    Guarded E root (loopLines E cond top out body step) := by
  have hbranch := guarded_branch hn hcond h hoperands hkind true out
  have htop : Guarded E root [.label top] := guarded_silent (by simp)
  have hend : Guarded E root [.instr (.jump top), .label out] :=
    guarded_silent (by simp [Instr.operands])
  have hall := (htop.append hbranch).append (hbody.append (hstep.append hend))
  simpa [loopLines] using hall

/-- A part of a loop's header is guarded, as each of its assignments is. -/
theorem guarded_clause {c : Clause} {kind : Kind} (hn : c.node kind ∈ root.nodesOnto [])
    (h : ∀ x ∈ c.legs, ∃ σ, x.Emitted E σ) : Guarded E root (instrs (c.code E)) := by
  have hall : ∀ as : List Assignment, as ⊆ c.assignments →
      Guarded E root (instrs (as.flatMap fun a => E.code a.node.id)) := by
    intro as hsub
    induction as with
    | nil => exact guarded_silent (by simp)
    | cons a as ih =>
      have ha : a ∈ c.assignments := hsub List.mem_cons_self
      obtain ⟨σ, hemitted⟩ := h (.simple (.assignment a)) (List.mem_map_of_mem ha)
      have hnode : a.node ∈ root.nodesOnto [] :=
        Node.mem_nodes_child hn (List.mem_map_of_mem ha) (by cases a <;> simp [Assignment.node])
      rw [List.flatMap_cons, instrs_append]
      exact (guarded_simple (x := .assignment a) hnode hemitted).append
        (ih fun b hb => hsub (List.mem_cons_of_mem _ hb))
  exact hall c.assignments (List.Subset.refl _)

mutual

/-- Wherever the parts of a statement are placed, what is read is held. -/
theorem guarded_stmt (x : Stmt) (hn : x.node ∈ root.nodesOnto [])
    (h : ∀ leg ∈ x.legs, ∃ σ, leg.Emitted E σ) (exit : Option Label) (next : Nat) :
    Guarded E root (x.lines E exit next) := by
  -- the lines of a statement are those of its parts, which guard themselves, and jumps on values
  cases x with
  | simple x =>
    obtain ⟨σ, hx⟩ := h _ List.mem_cons_self
    exact guarded_simple hn hx
  | ret tag value =>
    cases value with
    | none => exact guarded_silent (by simp [Stmt.lines, Instr.operands])
    | some e =>
      obtain ⟨σ, he⟩ := h _ List.mem_cons_self
      have hnode : e.node ∈ root.nodesOnto [] :=
        Node.mem_nodes_child hn (by simp [Stmt.node, Node.children]) e.node_ne_absent
      have hguarded := guarded_value [] hn hnode he (guarded_silent (by simp)) rfl
        (i := .ret (some _)) rfl (by simp [Stmt.node, Node.kind, Kind.isExpr, Kind.isSimple])
      rw [Stmt.lines, he.at.1, he.at.2]
      rw [List.nil_append, instrs_append] at hguarded
      exact hguarded
  | brk tag => cases exit <;> exact guarded_silent (by simp [Stmt.lines, Instr.operands])
  | branch tag negated cond tags body arms =>
    obtain ⟨σ, hcond⟩ := h _ List.mem_cons_self
    have hcondNode : cond.node ∈ root.nodesOnto [] :=
      Node.mem_nodes_child hn (by simp [Stmt.node, Node.children]) (by simp [Cond.node])
    have hblock : tags.node body.nodes ∈ root.nodesOnto [] :=
      Node.mem_nodes_child hn (by simp [Stmt.node, Node.children]) (by simp [BlockTags.node])
    have harmNodes : ∀ m ∈ arms.nodes, m ∈ root.nodesOnto [] := fun m hm =>
      Node.mem_nodes_child hn (by simp [Stmt.node, Node.children, hm]) (arms.nodes_ne_absent m hm)
    have hbody := guarded_stmts body (mem_block hblock)
      (fun leg hleg => h leg (by simp [Stmt.legs, hleg])) exit (next + arms.own)
    have harms := guarded_arms arms harmNodes
      (fun leg hleg => h leg (by simp [Stmt.legs, hleg])) exit (arms.finish next)
      (next + arms.own + body.span)
    -- labels read nothing
    have hlabels : Guarded E root ((arms.finish next).toList.map .label) := guarded_silent (by simp)
    rw [Stmt.lines]
    refine (guarded_armLines hn hcondNode hcond ?_ ?_ hbody).append (harms.append hlabels)
    · cases negated <;> rfl
    · cases negated <;> exact ⟨rfl, rfl⟩
  | whileLoop tag cond tags body =>
    obtain ⟨σ, hcond⟩ := h _ List.mem_cons_self
    have hcondNode : cond.node ∈ root.nodesOnto [] :=
      Node.mem_nodes_child hn (by simp [Stmt.node, Node.children]) (by simp [Cond.node])
    have hblock : tags.node body.nodes ∈ root.nodesOnto [] :=
      Node.mem_nodes_child hn (by simp [Stmt.node, Node.children]) (by simp [BlockTags.node])
    have hbody := guarded_stmts body (mem_block hblock)
      (fun leg hleg => h leg (by simp [Stmt.legs, hleg])) (some ⟨next + 1⟩) (next + 2)
    exact guarded_loopLines hn hcondNode hcond rfl ⟨rfl, rfl⟩ hbody (guarded_silent (by simp))
  | forLoop tag init cond step tags body =>
    obtain ⟨σ, hcond⟩ := h (.value cond.expr) (by simp [Stmt.legs])
    have hinitNode : init.node .forInit ∈ root.nodesOnto [] :=
      Node.mem_nodes_child hn (by simp [Stmt.node, Node.children]) (by simp [Clause.node])
    have hcondNode : cond.node ∈ root.nodesOnto [] :=
      Node.mem_nodes_child hn (by simp [Stmt.node, Node.children]) (by simp [Cond.node])
    have hstepNode : step.node .forStep ∈ root.nodesOnto [] :=
      Node.mem_nodes_child hn (by simp [Stmt.node, Node.children]) (by simp [Clause.node])
    have hblock : tags.node body.nodes ∈ root.nodesOnto [] :=
      Node.mem_nodes_child hn (by simp [Stmt.node, Node.children]) (by simp [BlockTags.node])
    have hinit := guarded_clause hinitNode fun x hx => h x (by simp [Stmt.legs, hx])
    have hstep := guarded_clause hstepNode fun x hx => h x (by simp [Stmt.legs, hx])
    have hbody := guarded_stmts body (mem_block hblock)
      (fun leg hleg => h leg (by simp [Stmt.legs, hleg])) (some ⟨next + 1⟩) (next + 2)
    exact hinit.append (guarded_loopLines hn hcondNode hcond rfl ⟨rfl, rfl⟩ hbody hstep)

/-- The lines of statements are guarded. -/
theorem guarded_stmts (b : Stmts) (hn : ∀ m ∈ b.nodes, m ∈ root.nodesOnto [])
    (h : ∀ leg ∈ b.legs, ∃ σ, leg.Emitted E σ) (exit : Option Label) (next : Nat) :
    Guarded E root (b.lines E exit next) := by
  cases b with
  | nil => exact guarded_silent (by simp [Stmts.lines])
  | cons first rest =>
    have hfirst := guarded_stmt first (hn _ List.mem_cons_self)
      (fun leg hleg => h leg (by simp [Stmts.legs, hleg])) exit next
    have hrest := guarded_stmts rest (fun m hm => hn m (List.mem_cons_of_mem _ hm))
      (fun leg hleg => h leg (by simp [Stmts.legs, hleg])) exit (next + first.span)
    exact hfirst.append hrest

/-- The lines of further arms are guarded. -/
theorem guarded_arms (a : Arms) (hn : ∀ m ∈ a.nodes, m ∈ root.nodesOnto [])
    (h : ∀ leg ∈ a.legs, ∃ σ, leg.Emitted E σ) (exit finish : Option Label) (next : Nat) :
    Guarded E root (a.lines E exit finish next) := by
  cases a with
  | none => exact guarded_silent (by simp [Arms.lines])
  | last tag tags body =>
    have hblock : tags.node body.nodes ∈ root.nodesOnto [] :=
      Node.mem_nodes_child (hn _ List.mem_cons_self) (by simp [Node.children])
        (by simp [BlockTags.node])
    exact guarded_stmts body (mem_block hblock) h exit next
  | elsif tag cond tags body rest =>
    have harm := hn _ List.mem_cons_self
    obtain ⟨σ, hcond⟩ := h _ List.mem_cons_self
    have hcondNode : cond.node ∈ root.nodesOnto [] :=
      Node.mem_nodes_child harm (by simp [Node.children]) (by simp [Cond.node])
    have hblock : tags.node body.nodes ∈ root.nodesOnto [] :=
      Node.mem_nodes_child harm (by simp [Node.children]) (by simp [BlockTags.node])
    -- the labels of an arm are taken before those of its body, and those of the next arms come last
    have hbody := guarded_stmts body (mem_block hblock)
      (fun leg hleg => h leg (by simp [Arms.legs, hleg])) exit (next + 2)
    have hrest := guarded_arms rest (fun m hm => hn m (List.mem_cons_of_mem _ hm))
      (fun leg hleg => h leg (by simp [Arms.legs, hleg])) exit finish (next + 2 + body.span)
    exact (guarded_armLines harm hcondNode hcond rfl ⟨rfl, rfl⟩ hbody).append hrest

end

end Statements

/-! ## Programs

Each subroutine is made of the lines of statements, so the property goes from the statements to the
program. -/

section Programs

variable {E : Emission}

/-- What holds along some legs holds of each of them at some spot. -/
theorem Shape.Along.exists_spot {P : Leg → Spot → Prop} {legs : List Leg} {σ : Spot}
    (h : Along P legs σ) : ∀ x ∈ legs, ∃ σ, P x σ := by
  induction legs generalizing σ with
  | nil => simp
  | cons x legs ih => exact List.forall_mem_cons.mpr ⟨⟨σ, h.1⟩, ih h.2⟩

/-- What a thing at the top of a program is lowered to is guarded. -/
theorem guarded_block {root : Node} {i : Item} {σ : Spot} (hn : i.node ∈ root.nodesOnto [])
    (h : i.Along (Leg.Emitted E) σ) (next : Nat) : Guarded E root (i.block E next) := by
  cases i with
  | stmt x => exact guarded_stmt x hn h.exists_spot none next
  | function parts body =>
    have hblock : parts.tags.node body.nodes ∈ root.nodesOnto [] :=
      Node.mem_nodes_child hn (by simp [Item.node, Node.children]) (by simp [BlockTags.node])
    have hparams : Guarded E root (instrs (parts.params.map fun p => .param p.text)) := by
      refine guarded_instrs fun i hi => ?_
      obtain ⟨p, -, rfl⟩ := List.mem_map.mp hi
      rfl
    exact hparams.append (guarded_stmts body (mem_block hblock) h.exists_spot none next)

/-- The main part is guarded. -/
theorem guarded_mainLines {root : Node} {items : List Item} {σ : Spot}
    (hn : ∀ i ∈ items, i.node ∈ root.nodesOnto []) (h : AlongItems (Leg.Emitted E) items σ)
    (next : Nat) : Guarded E root (mainLines E items next) := by
  induction items generalizing σ next with
  | nil => exact guarded_silent (by simp [mainLines])
  | cons i items ih =>
    have hrest := ih (fun j hj => hn j (List.mem_cons_of_mem _ hj)) h.2 (next + i.span)
    cases i with
    | stmt x => exact (guarded_block (hn _ List.mem_cons_self) h.1 next).append hrest
    | function parts body => exact hrest

/-- What stands at the top of a script belongs to its tree. -/
theorem Shape.Script.mem_item {script : Script} {i : Item} (h : i ∈ script.items) :
    i.node ∈ script.node.nodesOnto [] := by
  have hroot : script.node ∈ script.node.nodesOnto [] := by simp [Script.node, Node.nodesOnto]
  have hlist : .mk script.list.id .stmtList script.list.token (script.items.map Item.node) ∈
      script.node.nodesOnto [] := Node.mem_nodes_child hroot (by simp [Script.node, Node.children])
    (by simp)
  refine Node.mem_nodes_child hlist (List.mem_map_of_mem h) ?_
  cases i with
  | stmt x => exact x.node_ne_absent
  | function parts body => simp [Item.node]

/-- All subroutines are guarded. -/
theorem guarded_subs {script : Script} (hlegs : AlongItems (Leg.Emitted E) script.items .start)
    {p : Program} (hmain : p.main = (mainLines E script.items 0).toArray)
    (hfunctions : ∀ r ∈ p.functions, LastDefined E script.items 0 r) :
    ∀ sub ∈ p.subs, Guarded E script.node sub := by
  intro sub hsub
  obtain rfl | hsub := List.mem_cons.mp hsub
  · rw [hmain]
    exact guarded_mainLines (fun i hi => Script.mem_item hi) hlegs 0
  · obtain ⟨r, hr, rfl⟩ := List.mem_map.mp hsub
    obtain ⟨pre, parts, body, post, hitems, -, hcode⟩ := (hfunctions r hr).block
    have hmem : .function parts body ∈ script.items := by simp [hitems]
    obtain ⟨σ, hbody⟩ := exists_along_of_mem hlegs hmem
    rw [hcode]
    exact guarded_block (Script.mem_item hmem) hbody _

end Programs

/-- In the program of a parsed source, every register in an operand was written by the code of the node
whose value the operand is, and is neither written again nor jumped over until it is read. In a
subroutine no truth register is written twice, and a walk takes an object register twice only after it
has started again from the first one. -/
theorem registers_of_parse {src : Source} {root : Node} (hparse : parse src = .ok root)
    (label stdlib : String) :
    ∃ (E : Emission) (final : Lowering) (program : Program),
      E.Records root (.started label stdlib) ∧ lower root label stdlib = .ok final ∧
      final.program = some program ∧ (∀ sub ∈ program.subs, Guarded E root sub) ∧
      (∀ sub ∈ program.subs, (boolsOf sub).Nodup) ∧
      Successive root.walk.events (.started label stdlib) := by
  obtain ⟨script, E, s, rfl, hvalid, hnodup, hE, hlowers⟩ := exists_lowers hparse label stdlib
  obtain ⟨program, hprogram, hmain⟩ := hlowers.main
  obtain ⟨-, hfunctions⟩ := hlowers.emitted program hprogram
  refine ⟨E, _, program, hE.records hlowers.visits, lower_eq_of_walk hnodup hlowers.visits.run,
    hprogram, guarded_subs hlowers.legs hmain hfunctions,
    nodup_boolsOf_subs hlowers.legs hmain hfunctions, ?_⟩
  rw [walk_eq_tour hnodup hlowers.visits.run]
  have hrun := hlowers.visits.run
  rw [← Lower.forM_tour] at hrun
  exact successive_of_run hrun

/-- Operands of all kinds, in a header, an index, arguments, conditions and a return. -/
def registered : Source := .ofString "def f(n)
  for(i = 0; n < i and i < $m; i += -f(n - i))
    a[i * 2] = a[i] + g(k: a[-i], $m ** n)
    f(a[f(i)])
  end
  return not n
end
x = f(1) - f(2)
$m = x * x
"

/-- Applied to the program above. -/
theorem registers_registered :
    ∃ root, parse registered = .ok root ∧
      ∃ (E : Emission) (final : Lowering) (program : Program),
        E.Records root (.started "registered" defaultStdlib) ∧
        lower root "registered" defaultStdlib = .ok final ∧
        final.program = some program ∧ (∀ sub ∈ program.subs, Guarded E root sub) ∧
        (∀ sub ∈ program.subs, (boolsOf sub).Nodup) ∧
        Successive root.walk.events (.started "registered" defaultStdlib) := by
  have hok : (parse registered).isOk = true := by decide +kernel
  cases hparse : parse registered with
  | error e => rw [hparse] at hok; cases hok
  | ok root => exact ⟨root, rfl, registers_of_parse hparse "registered" defaultStdlib⟩

end ScriptPir

import ScriptPir.Proofs.ExpressionLowering
import ScriptPir.Proofs.Paths
import ScriptPir.Proofs.StatementParsing

/-!
# Well-formed trees

Main statement: `wellFormed_of_parse`. The tree of a source that parses holds every node that was
made, at the place of its id and at the end of one path. Every node has the children that its kind
asks for (`Node.fits`), and its operator is one that the lowering knows. Functions stand at the top,
breaks in the bodies of loops, and indices hold no constants but integers.

All but the numbering is read off the shape of the tree, by induction on statements and expressions.

* `Node.fits` — the table of kinds, with the children that each of them asks for;
* `Node.Sound` — what holds of the tree of a statement, at every path from its root;
* `Stmt.sound` — all statements, by mutual induction with lists and arms;
* `Script.wellFormed` — the program, with the numbering of its nodes.
-/

namespace ScriptPir

open Shape

/-! ## The children of each kind

The table of kinds is the specification: it is written for nodes of any tree, and the parser is not
mentioned in it. -/

/-- Whether a node is a token with a property. -/
def Node.isTerm (p : Token → Bool) : Node → Bool
  | .mk _ .terminal token [] => p token
  | _ => false

/-- The productions of statements. -/
def Kind.isStmt : Kind → Bool
  | .funcDef | .returnStmt | .ifStmt | .unlessStmt | .whileLoop | .forLoop | .breakStmt => true
  | kind => kind.isSimple

/-- The productions of assignments that the header of a loop may hold. -/
def Kind.isAssignment : Kind → Bool
  | .assign | .arrayInit | .indexAssign | .globalGet => true
  | _ => false

/-- The operators of arithmetic. -/
def arithmeticOps : List String := ["+", "-", "*", "/", "%", "**"]

/-- The operators that stand before their operand. -/
def signs : List String := ["-", "!", "not"]

/-- Whether nodes are any number of arms with a condition, and at most one without behind them. -/
def Node.areArms : List Node → Bool
  | [] => true
  | [n] => n.kind = .elsifArm || n.kind = .elseArm
  | n :: ns => n.kind = .elsifArm && areArms ns

/-- Whether nodes are an expression, an operator with a property and an expression. -/
def Node.areOperation (p : String → Bool) : List Node → Bool
  | [left, op, right] => left.kind.isExpr && op.isTerm (p ·.text) && right.kind.isExpr
  | _ => false

/-- Whether nodes are those below a node of a given kind. -/
def Node.fits : Kind → List Node → Bool
  | .terminal, [] => true
  | .program, [list] => list.kind = .stmtList
  | .stmtList, stmts => stmts.all (·.kind.isStmt)
  | .funcDef, [name, params, body] =>
    name.isTerm Token.isName && params.kind = .params && body.kind = .body
  | .params, names => names.all (·.isTerm Token.isName)
  | .returnStmt, [] => true
  | .returnStmt, [e] => e.kind.isExpr
  | .ifStmt, cond :: body :: arms => cond.kind = .cond && body.kind = .body && Node.areArms arms
  | .unlessStmt, [cond, body] => cond.kind = .cond && body.kind = .body
  | .unlessStmt, [cond, body, last] =>
    cond.kind = .cond && body.kind = .body && last.kind = .elseArm
  | .elsifArm, [cond, body] => cond.kind = .cond && body.kind = .body
  | .elseArm, [body] => body.kind = .body
  | .whileLoop, [cond, body] => cond.kind = .cond && body.kind = .body
  | .forLoop, [init, cond, step, body] =>
    init.kind = .forInit && cond.kind = .cond && step.kind = .forStep && body.kind = .body
  | .forInit, assignments => assignments.all (·.kind.isAssignment)
  | .forStep, assignments => assignments.all (·.kind.isAssignment)
  | .cond, [e] => e.kind.isExpr
  | .body, [list] => list.kind = .stmtList
  | .breakStmt, [] => true
  | .assign, [name, op, e] =>
    name.isTerm Token.isName && op.isTerm Token.isAssign && e.kind.isExpr
  | .arrayInit, [name, op] => name.isTerm Token.isName && op.isTerm (·.isOp "=")
  | .indexAssign, [target, op, e] =>
    target.kind = .index && op.isTerm (·.isOp "=") && e.kind.isExpr
  | .globalSet, [global, op, e] =>
    global.isTerm (·.kind = .global) && op.isTerm (·.isOp "=") && e.kind.isExpr
  | .globalGet, [name, op, global] =>
    name.isTerm Token.isName && op.isTerm (·.isOp "=") && global.isTerm (·.kind = .global)
  | .require, [library] => library.isTerm (·.kind = .string)
  | .inlinePir, [code] => code.isTerm (·.kind = .pir)
  | .callStmt, [call] => call.kind = .call
  | .call, [callee, args] => callee.isTerm Token.isName && args.kind = .args
  | .args, args => args.all (·.kind = .arg)
  | .arg, [e] => e.kind.isExpr
  | .arg, [name, e] => name.isTerm Token.isName && e.kind.isExpr
  | .literal, [leaf] => leaf.isTerm fun t => (literal t).isOk
  | .ident, [name] => name.isTerm Token.isName
  | .globalRef, [global] => global.isTerm (·.kind = .global)
  | .paren, [opening, e, closing] =>
    opening.isTerm (·.isOpening "(") && e.kind.isExpr &&
      closing.isTerm fun t => t.kind = .closing && t.text = ")"
  | .unary, [sign, e] => sign.isTerm (·.text ∈ signs) && e.kind.isExpr
  | .binary, parts => Node.areOperation (· ∈ arithmeticOps) parts
  | .compare, parts => Node.areOperation (BoolOp.ofText? · |>.isSome) parts
  | .logic, parts => Node.areOperation (BoolOp.ofText? · |>.isSome) parts
  | .index, [array, opening, e, closing] =>
    array.kind = .ident && opening.isTerm (·.isOpening "[") && e.kind.isExpr &&
      closing.isTerm fun t => t.kind = .closing && t.text = "]"
  | _, _ => false

/-- What holds of every node on its own: its children are those of its kind, and an index is not a
constant of another type. -/
structure Node.Proper (n : Node) : Prop where
  fits : Node.fits n.kind n.children = true
  integral : n.kind = .index → ∀ e, n.child? 2 = some e → e.nonIntegral? = none

/-- A node that is no element access needs only its children. -/
theorem Node.proper_mk {id : Int} {kind : Kind} {token : Token} {children : List Node}
    (hindex : kind ≠ .index) (hfits : Node.fits kind children = true) :
    (Node.mk id kind token children).Proper :=
  ⟨hfits, fun h => absurd h hindex⟩

/-! ## Breaks and functions

Where a break may stand depends on what is above it, so the property of a tree has a parameter that
says whether it is inside a loop. A path names the node, and its beginnings name those above. -/

/-- The productions of loops. -/
def Kind.isLoop : Kind → Bool
  | .whileLoop | .forLoop => true
  | _ => false

/-- The path goes through the body of a loop, and below it through no function. -/
def Node.InLoop (n : Node) (path : List Nat) : Prop :=
  ∃ (above : List Nat) (i : Nat) (below : List Nat) (loop body : Node),
    path = above ++ i :: below ∧ n.follow above = some loop ∧ loop.kind.isLoop = true ∧
      loop.child? i = some body ∧ body.kind = .body ∧
      ∀ q m, q <+: below → body.follow q = some m → m.kind ≠ .funcDef

/-- A path that goes through a loop of a child goes through it from above. -/
theorem Node.InLoop.below {n c : Node} {i : Nat} {path : List Nat} (hc : n.child? i = some c)
    (h : c.InLoop path) : n.InLoop (i :: path) := by
  obtain ⟨above, j, below, loop, body, rfl, habove, hloop⟩ := h
  exact ⟨i :: above, j, below, loop, body, rfl, Node.follow_cons_eq_some.mpr ⟨c, hc, habove⟩, hloop⟩

/-- What holds of the tree of a statement, inside a loop or not: every node is proper and no function,
and every break is in a loop of the tree or leaves one around it. -/
def Node.Sound (inLoop : Bool) (n : Node) : Prop :=
  ∀ path m, m ≠ .absent → n.follow path = some m →
    m.Proper ∧ m.kind ≠ .funcDef ∧ (m.kind = .breakStmt → inLoop = true ∨ n.InLoop path)

section

variable {id : Int} {kind : Kind} {token : Token} {children : List Node} {inLoop : Bool}

/-- Only the body of a loop may leave a loop that is not around the tree. -/
theorem Node.sound_mk (hproper : (Node.mk id kind token children).Proper) (hkind : kind ≠ .funcDef)
    (hbreak : kind = .breakStmt → inLoop = true)
    (h : ∀ c ∈ children, c.Sound inLoop ∨ (kind.isLoop = true ∧ c.kind = .body ∧ c.Sound true)) :
    (Node.mk id kind token children).Sound inLoop := by
  intro path m hm hpath
  -- the node itself, or one below a child; breaks below the body of a loop are inside that loop
  cases path with
  | nil =>
    obtain rfl := Option.some.inj hpath
    exact ⟨hproper, hkind, fun hk => .inl (hbreak hk)⟩
  | cons i path =>
    obtain ⟨c, hc, hpath⟩ := Node.follow_cons_eq_some.mp hpath
    obtain hsound | ⟨hloop, hbody, hsound⟩ :=
      h c (List.mem_of_getElem? (Node.child?_eq_some.mp hc).1)
    · obtain ⟨hproper, hfunc, hinside⟩ := hsound path m hm hpath
      exact ⟨hproper, hfunc, fun hk => (hinside hk).imp_right (.below hc)⟩
    · obtain ⟨hproper, hfunc, -⟩ := hsound path m hm hpath
      refine ⟨hproper, hfunc, fun _ => .inr ?_⟩
      refine ⟨[], i, path, _, c, rfl, rfl, hloop, hc, hbody, fun q m hq hm => ?_⟩
      by_cases habsent : m = .absent
      · rw [habsent]
        exact nofun
      · exact (hsound q m habsent hm).2.1

/-- A node that is no statement of its own is sound if what is below it is. -/
theorem Node.sound_of_children (hkind : kind ≠ .funcDef ∧ kind ≠ .breakStmt ∧ kind ≠ .index)
    (hfits : Node.fits kind children = true) (h : ∀ c ∈ children, c.Sound inLoop) :
    (Node.mk id kind token children).Sound inLoop :=
  Node.sound_mk (Node.proper_mk hkind.2.2 hfits) hkind.1 (fun hk => absurd hk hkind.2.1)
    fun c hc => .inl (h c hc)

end

/-! ## Expressions

No expression holds a break or a function, so being sound comes down to the children of each kind. -/

namespace Shape

variable {inLoop : Bool}

theorem Leaf.sound (l : Leaf) : l.node.Sound inLoop := Node.sound_of_children (by decide) rfl nofun

/-- An expression is of a kind of expressions. -/
theorem Expr.kind_isExpr (e : Expr) : e.node.kind.isExpr = true := by
  cases e with
  | operation id left op right =>
    show op.op.kind.isExpr = true
    obtain ⟨hkind, -⟩ | ⟨hkind | hkind, -⟩ := op.kind_cases <;> rw [hkind] <;> rfl
  | constant | var | global | paren | unary | element | call => rfl

/-- A sign is one of the operators in front of an operand. -/
theorem Sign.text_mem (s : Sign) : s.text ∈ signs := by
  have h := s.isSign
  simp only [Parser.isSign, Token.isOp, Token.isKeyword, Bool.or_eq_true, Bool.and_eq_true,
    decide_eq_true_eq] at h
  obtain (⟨-, h⟩ | ⟨-, h⟩) | ⟨-, h⟩ := h <;> simp [Leaf.text, h, signs]

theorem Bracket.isOpening {text : String} (b : Bracket .opening text) :
    b.token.isOpening text = true := by
  simp [Token.isOpening, b.kind_eq, b.text_eq]

/-- A binary operator has the kind of node that fits it. -/
theorem BinaryOp.fits (o : BinaryOp) {left right : Expr} :
    Node.fits o.op.kind [left.node, o.node, right.node] = true := by
  have htable : ∀ entry ∈ Operator.table,
      (entry.2.kind = .binary ∧ entry.1 ∈ arithmeticOps) ∨
        ((entry.2.kind = .compare ∨ entry.2.kind = .logic) ∧
          (BoolOp.ofText? entry.1).isSome = true) := by decide
  have hparts (p : String → Bool) (hp : p o.text = true) :
      Node.areOperation p [left.node, o.node, right.node] = true := by
    show (left.node.kind.isExpr && p o.text && right.node.kind.isExpr) = true
    rw [left.kind_isExpr, right.kind_isExpr, hp]
    rfl
  obtain ⟨hkind, htext⟩ | ⟨hkind | hkind, htext⟩ := htable _ o.mem_table <;> rw [hkind]
  · exact hparts (· ∈ arithmeticOps) (decide_eq_true htext)
  · exact hparts (BoolOp.ofText? · |>.isSome) htext
  · exact hparts (BoolOp.ofText? · |>.isSome) htext

/-- An argument is of the kind of arguments, with a name or without. -/
theorem kind_argNode (id : Int) (name : Option Name) (token : Token) (value : Node) :
    (argNode id name token value).kind = .arg := by
  cases name <;> rfl

/-- Arguments are of the kind of arguments. -/
theorem Args.kind_nodes (as : Args) : as.nodes.all (·.kind = .arg) = true := by
  cases as with
  | nil => rfl
  | cons id name value rest => simp [Args.nodes, kind_argNode, rest.kind_nodes]

/-- An argument is sound if its value is. -/
theorem sound_argNode (id : Int) (name : Option Name) {value : Expr}
    (h : value.node.Sound inLoop) : (argNode id name value.token value.node).Sound inLoop := by
  cases name with
  | none => exact Node.sound_of_children (by decide) value.kind_isExpr (by simpa using h)
  | some name =>
    refine Node.sound_of_children (by decide) ?_ (by simpa using ⟨name.sound, h⟩)
    show (name.token.isName && value.node.kind.isExpr) = true
    rw [name.isName, value.kind_isExpr]
    rfl

/-- An element access is sound if its index is, and is no constant of another type. -/
theorem sound_element (parts : ElementParts) {index : Expr}
    (hindex : index.node.nonIntegral? = none) (h : index.node.Sound inLoop) :
    (Expr.element parts index).node.Sound inLoop := by
  have harray : (Node.mk parts.arrayId .ident parts.array.token [parts.array.node]).Sound inLoop :=
    Node.sound_of_children (by decide) parts.array.isName (by simpa using parts.array.sound)
  rw [Expr.node]
  refine Node.sound_mk ⟨?_, fun _ e he => ?_⟩ nofun nofun fun c hc => .inl ?_
  · show (true && parts.opening.token.isOpening "[" && index.node.kind.isExpr &&
      (decide (parts.closing.token.kind = .closing) && decide (parts.closing.token.text = "]"))) = true
    simp [parts.opening.isOpening, index.kind_isExpr, parts.closing.kind_eq, parts.closing.text_eq]
  · obtain rfl := Option.some.inj (Node.child?_eq_some.mp he).1
    exact hindex
  · revert c
    simpa using ⟨harray, parts.opening.sound, h, parts.closing.sound⟩

mutual

/-- Expressions are sound. -/
theorem Expr.sound (e : Expr) (h : e.Indexed) : e.node.Sound inLoop := by
  -- the children fit by what the constructor carries, and are sound by induction
  cases e with
  | constant id leaf =>
    refine Node.sound_of_children (by decide) ?_ (by simpa using leaf.sound)
    show (literal leaf.token).isOk = true
    rw [leaf.literal_eq]
    rfl
  | var id name => exact Node.sound_of_children (by decide) name.isName (by simpa using name.sound)
  | global id name =>
    exact Node.sound_of_children (by decide) (decide_eq_true name.kind_eq)
      (by simpa using name.sound)
  | paren id opening inner closing =>
    refine Node.sound_of_children (by decide) ?_
      (by simpa using ⟨opening.sound, inner.sound h, closing.sound⟩)
    show (opening.token.isOpening "(" && inner.node.kind.isExpr &&
      (decide (closing.token.kind = .closing) && decide (closing.token.text = ")"))) = true
    simp [opening.isOpening, inner.kind_isExpr, closing.kind_eq, closing.text_eq]
  | unary id sign operand =>
    refine Node.sound_of_children (by decide) ?_ (by simpa using ⟨sign.sound, operand.sound h⟩)
    show (decide (sign.text ∈ signs) && operand.node.kind.isExpr) = true
    rw [decide_eq_true sign.text_mem, operand.kind_isExpr]
    rfl
  | operation id left op right =>
    refine Node.sound_of_children ?_ op.fits
      (by simpa using ⟨left.sound h.1, op.sound, right.sound h.2⟩)
    obtain ⟨hkind, -⟩ | ⟨hkind | hkind, -⟩ := op.kind_cases <;> rw [hkind] <;> decide
  | element parts index => exact sound_element parts h.1 (index.sound h.2)
  | call parts args =>
    have hargs : (Node.mk parts.args.id .args parts.args.token args.nodes).Sound inLoop :=
      Node.sound_of_children (by decide) args.kind_nodes (args.sound h)
    refine Node.sound_of_children (by decide) ?_ (by simpa using ⟨parts.callee.sound, hargs⟩)
    show (parts.callee.token.isName && true) = true
    rw [parts.callee.isName]
    rfl

/-- Arguments are sound. -/
theorem Args.sound (as : Args) (h : as.Indexed) : ∀ n ∈ as.nodes, n.Sound inLoop := by
  cases as with
  | nil => nofun
  | cons id name value rest =>
    rw [Args.nodes, List.forall_mem_cons]
    exact ⟨sound_argNode id name (value.sound h.1), rest.sound h.2⟩

end

/-! ## Statements

A break is sound inside a loop, and the body of a loop is inside one. All other statements pass on to
their blocks what is around them. -/

/-- Assignments are sound. -/
theorem Assignment.sound (a : Assignment) (h : a.Indexed) : a.node.Sound inLoop := by
  -- the leaves carry the properties that the table of kinds asks for
  cases a with
  | assign id name op value =>
    refine Node.sound_of_children (by decide) ?_
      (by simpa using ⟨name.sound, op.sound, value.sound h⟩)
    show (name.token.isName && op.token.isAssign && value.node.kind.isExpr) = true
    rw [name.isName, op.isAssign, value.kind_isExpr]
    rfl
  | arrayInit id name op =>
    refine Node.sound_of_children (by decide) ?_ (by simpa using ⟨name.sound, op.sound⟩)
    show (name.token.isName && op.token.isOp "=") = true
    rw [name.isName, op.isEquals]
    rfl
  | store id target index op value =>
    refine Node.sound_of_children (by decide) ?_
      (by simpa using ⟨Expr.sound _ h.1, op.sound, value.sound h.2⟩)
    show (true && op.token.isOp "=" && value.node.kind.isExpr) = true
    rw [op.isEquals, value.kind_isExpr]
    rfl
  | globalGet id name op global =>
    refine Node.sound_of_children (by decide) ?_
      (by simpa using ⟨name.sound, op.sound, global.sound⟩)
    show (name.token.isName && op.token.isOp "=" && decide (global.token.kind = .global)) = true
    rw [name.isName, op.isEquals, decide_eq_true global.kind_eq]
    rfl

/-- Simple statements are sound. -/
theorem Simple.sound (x : Simple) (h : x.Indexed) : x.node.Sound inLoop := by
  cases x with
  | assignment a => exact a.sound h
  | globalSet id global op value =>
    refine Node.sound_of_children (by decide) ?_
      (by simpa using ⟨global.sound, op.sound, value.sound h⟩)
    show (decide (global.token.kind = .global) && op.token.isOp "=" && value.node.kind.isExpr) = true
    rw [decide_eq_true global.kind_eq, op.isEquals, value.kind_isExpr]
    rfl
  | require tag library =>
    exact Node.sound_of_children (by decide) (decide_eq_true library.kind_eq)
      (by simpa using library.sound)
  | target id code =>
    exact Node.sound_of_children (by decide) (decide_eq_true code.kind_eq)
      (by simpa using code.sound)
  | call id parts args =>
    exact Node.sound_of_children (by decide) rfl (by simpa using (Expr.call parts args).sound h)

theorem Cond.sound (c : Cond) (h : c.expr.Indexed) : c.node.Sound inLoop :=
  Node.sound_of_children (by decide) c.expr.kind_isExpr (by simpa using c.expr.sound h)

/-- The clauses of a loop header are sound. -/
theorem Clause.sound (c : Clause) (h : c.Indexed) {kind : Kind}
    (hkind : kind = .forInit ∨ kind = .forStep) : (c.node kind).Sound inLoop := by
  have hfits : (c.assignments.map Assignment.node).all (·.kind.isAssignment) = true := by
    rw [List.all_map, List.all_eq_true]
    intro a _
    cases a <;> rfl
  refine Node.sound_of_children ?_ ?_ fun n hn => ?_
  · obtain rfl | rfl := hkind <;> decide
  · obtain rfl | rfl := hkind <;> exact hfits
  · obtain ⟨a, ha, rfl⟩ := List.mem_map.mp hn
    exact a.sound (h a ha)

/-- A block is sound if its statements are. -/
theorem BlockTags.sound (tags : BlockTags) {ns : List Node}
    (hkinds : ns.all (·.kind.isStmt) = true) (h : ∀ n ∈ ns, n.Sound inLoop) :
    (tags.node ns).Sound inLoop := by
  have hlist : (Node.mk tags.list.id .stmtList tags.list.token ns).Sound inLoop :=
    Node.sound_of_children (by decide) hkinds h
  exact Node.sound_of_children (by decide) rfl (by simpa using hlist)

/-- A statement is of a kind of statements. -/
theorem Stmt.kind_isStmt (x : Stmt) : x.node.kind.isStmt = true := by
  cases x with
  | simple x =>
    cases x with
    | assignment a => cases a <;> rfl
    | globalSet | require | target | call => rfl
  | ret tag value => cases value <;> rfl
  | branch tag negated => cases negated <;> rfl
  | brk | whileLoop | forLoop => rfl

/-- The nodes of a list of statements are of kinds of statements. -/
theorem Stmts.kind_nodes (b : Stmts) : b.nodes.all (·.kind.isStmt) = true := by
  cases b with
  | nil => rfl
  | cons first rest => simp [Stmts.nodes, first.kind_isStmt, rest.kind_nodes]

/-- The nodes of further arms are arms, and only the last one may be without a condition. -/
theorem Arms.areArms_nodes (a : Arms) : Node.areArms a.nodes = true := by
  cases a with
  | none => rfl
  | last tag tags body => rfl
  | elsif tag cond tags body rest =>
    have hrest := rest.areArms_nodes
    rw [Arms.nodes]
    cases hnodes : rest.nodes with
    | nil => rfl
    | cons n ns =>
      rw [hnodes] at hrest
      exact hrest

/-- A branch has the children of its kind; a negated one has no further conditions. -/
theorem fits_branch (negated : Bool) (cond : Cond) (tags : BlockTags) (body : Stmts) (arms : Arms)
    (h : negated = true → arms.IsLast) :
    Node.fits (if negated then .unlessStmt else .ifStmt)
      (cond.node :: tags.node body.nodes :: arms.nodes) = true := by
  cases negated with
  | false => exact arms.areArms_nodes
  | true =>
    cases arms with
    | none | last => rfl
    | elsif => exact absurd (h rfl) id

mutual

/-- Statements are sound. -/
theorem Stmt.sound {inLoop : Bool} (x : Stmt) (h : x.Valid inLoop) : x.node.Sound inLoop := by
  cases x with
  | simple x => exact x.sound h
  | ret tag value =>
    cases value with
    | none => exact Node.sound_of_children (by decide) rfl nofun
    | some e =>
      exact Node.sound_of_children (by decide) e.kind_isExpr (by simpa using e.sound (h e rfl))
  -- a `break` is sound in a loop only, and a loop makes its body one
  | brk tag => exact Node.sound_mk (Node.proper_mk nofun rfl) nofun (fun _ => h) nofun
  | branch tag negated cond tags body arms =>
    obtain ⟨hcond, hbody, harms, hlast⟩ := h
    refine Node.sound_of_children ?_ (fits_branch negated cond tags body arms hlast) ?_
    · cases negated <;> decide
    · rw [List.forall_mem_cons, List.forall_mem_cons]
      exact ⟨cond.sound hcond, tags.sound body.kind_nodes (body.sound hbody), arms.sound harms⟩
  | whileLoop tag cond tags body =>
    have hbody : (tags.node body.nodes).Sound true := tags.sound body.kind_nodes (body.sound h.2)
    refine Node.sound_mk (Node.proper_mk nofun rfl) nofun nofun ?_
    rw [List.forall_mem_cons, List.forall_mem_singleton]
    exact ⟨.inl (cond.sound h.1), .inr ⟨rfl, rfl, hbody⟩⟩
  | forLoop tag init cond step tags body =>
    obtain ⟨hinit, hcond, hstep, hbody⟩ := h
    have hbody : (tags.node body.nodes).Sound true := tags.sound body.kind_nodes (body.sound hbody)
    refine Node.sound_mk (Node.proper_mk nofun rfl) nofun nofun ?_
    rw [List.forall_mem_cons, List.forall_mem_cons, List.forall_mem_cons, List.forall_mem_singleton]
    exact ⟨.inl (init.sound hinit (.inl rfl)), .inl (cond.sound hcond),
      .inl (step.sound hstep (.inr rfl)), .inr ⟨rfl, rfl, hbody⟩⟩

/-- Lists of statements are sound. -/
theorem Stmts.sound {inLoop : Bool} (b : Stmts) (h : b.Valid inLoop) :
    ∀ n ∈ b.nodes, n.Sound inLoop := by
  cases b with
  | nil => nofun
  | cons first rest =>
    rw [Stmts.nodes, List.forall_mem_cons]
    exact ⟨first.sound h.1, rest.sound h.2⟩

/-- Further arms are sound. -/
theorem Arms.sound {inLoop : Bool} (a : Arms) (h : a.Valid inLoop) :
    ∀ n ∈ a.nodes, n.Sound inLoop := by
  cases a with
  | none => nofun
  | last tag tags body =>
    rw [Arms.nodes, List.forall_mem_singleton]
    exact Node.sound_of_children (by decide) rfl
      (by simpa using tags.sound body.kind_nodes (body.sound h))
  | elsif tag cond tags body rest =>
    rw [Arms.nodes, List.forall_mem_cons]
    refine ⟨Node.sound_of_children (by decide) rfl ?_, rest.sound h.2.2⟩
    rw [List.forall_mem_cons, List.forall_mem_singleton]
    exact ⟨cond.sound h.1, tags.sound body.kind_nodes (body.sound h.2.1)⟩

end

end Shape

/-! ## Operators

That children fit tells which operators can stand in a tree, and each of these is one that constants
are combined by or that the target has. -/

/-- An arithmetic operator that constants are combined by, and that the target has: a power by an
instruction of its own, any other between its operands. -/
structure Handled (op : String) : Prop where
  folds : ∀ l r : Int64, 0 < r → ∃ n, Fold.ints op l r = .ok (.int n)
  runs : op = "**" ∨ op ∈ ["+", "-", "*", "/", "%"]

/-- The operators of arithmetic are handled. -/
theorem handled_of_mem {op : String} (h : op ∈ arithmeticOps) : Handled op := by
  have hpos {r : Int64} (hr : 0 < r) : r ≠ 0 ∧ ¬r < 0 := by
    rw [Int64.lt_iff_toInt_lt] at *
    refine ⟨?_, by omega⟩
    rintro rfl
    omega
  simp only [arithmeticOps, List.mem_cons, List.not_mem_nil, or_false] at h
  refine ⟨fun l r hr => ?_, ?_⟩
  · obtain rfl | rfl | rfl | rfl | rfl | rfl := h <;> simp [Fold.ints, hpos hr]
  · obtain rfl | rfl | rfl | rfl | rfl | rfl := h <;> simp

/-- A token that has a property is a leaf, and its text is that of the token. -/
theorem Node.text_of_isTerm {n : Node} {p : Token → Bool} (h : n.isTerm p = true) :
    n ≠ .absent ∧ n.children = [] ∧ n.kind = .terminal ∧ n.text = n.token.text ∧
      p n.token = true := by
  unfold Node.isTerm at h
  split at h
  · exact ⟨nofun, rfl, rfl, by simp [Node.text, Node.token], h⟩
  · cases h

/-- The operator between the operands of an operation. -/
theorem Node.op_of_areOperation {n : Node} {p : String → Bool} (hop : n.opIndex? = some 1)
    (h : Node.areOperation p n.children = true) : ∃ op, n.op? = some op ∧ p op.text = true := by
  unfold Node.areOperation at h
  split at h
  · rename_i left op right hchildren
    simp only [Bool.and_eq_true] at h
    obtain ⟨habsent, -, -, htext, hp⟩ := Node.text_of_isTerm h.1.2
    refine ⟨op, ?_, htext ▸ hp⟩
    rw [Node.op?, hop]
    exact Node.child?_eq_some.mpr ⟨by rw [hchildren]; rfl, habsent⟩
  · cases h

/-- The operators of proper nodes are ones that the lowering knows. -/
theorem Node.Proper.operator {n : Node} (h : n.Proper) :
    (n.kind = .binary → ∃ op, n.op? = some op ∧ Handled op.text) ∧
      (n.kind = .compare ∨ n.kind = .logic →
        ∃ op, n.op? = some op ∧ (BoolOp.ofText? op.text).isSome = true) ∧
      (n.kind = .unary → ∃ op, n.op? = some op ∧ op.text ∈ signs) := by
  have hfits := h.fits
  -- the table gives the text of the operator for each of the three kinds
  refine ⟨fun hkind => ?_, fun hkind => ?_, fun hkind => ?_⟩
  · rw [hkind] at hfits
    have hparts : Node.areOperation (· ∈ arithmeticOps) n.children = true := hfits
    obtain ⟨op, hop, htext⟩ := Node.op_of_areOperation (by rw [Node.opIndex?, hkind]) hparts
    exact ⟨op, hop, handled_of_mem (of_decide_eq_true htext)⟩
  · have hparts : Node.areOperation (BoolOp.ofText? · |>.isSome) n.children = true := by
      obtain hkind | hkind := hkind <;> rw [hkind] at hfits <;> exact hfits
    refine Node.op_of_areOperation ?_ hparts
    obtain hkind | hkind := hkind <;> rw [Node.opIndex?, hkind]
  · rw [hkind] at hfits
    cases hchildren : n.children with
    | nil => rw [hchildren] at hfits; cases hfits
    | cons sign rest =>
      have hsign : sign.isTerm (·.text ∈ signs) = true := by
        rw [hchildren] at hfits
        match rest with
        | [e] => exact (Bool.and_eq_true_iff.mp hfits).1
      obtain ⟨habsent, -, -, htext, hp⟩ := Node.text_of_isTerm hsign
      refine ⟨sign, ?_, htext ▸ of_decide_eq_true hp⟩
      rw [Node.op?, Node.opIndex?, hkind]
      exact Node.child?_eq_some.mpr ⟨by rw [hchildren]; rfl, habsent⟩

/-! ## Indices

A constant in an index may stand below a call or below another index, where it is no index itself. -/

/-- A constant that is a double or a string. -/
def Node.isNonInteger (n : Node) : Prop :=
  n.kind = .literal ∧ ∃ leaf, n.child? 0 = some leaf ∧
    (leaf.token.kind = .float ∨ leaf.token.kind = .string)

/-- A constant that is no integer is found in itself. -/
theorem nonIntegral?_of_isNonInteger {n : Node} (h : n.isNonInteger) : n.nonIntegral? = some n := by
  obtain ⟨hkind, leaf, hleaf, hbad⟩ := h
  have hleaf := (Node.child?_eq_some.mp hleaf).1
  cases n with
  | absent => cases hleaf
  | mk id kind token children =>
    obtain rfl : kind = .literal := hkind
    cases children with
    | nil => cases hleaf
    | cons c rest =>
      obtain rfl : c = leaf := Option.some.inj hleaf
      exact if_pos hbad

/-- If no constant is found in some nodes, none is found in any of them. -/
theorem nonIntegral?_of_mem {n : Node} {ns : List Node} (h : Node.nonIntegralAny? ns = none)
    (hmem : n ∈ ns) : n.nonIntegral? = none := by
  induction ns with
  | nil => cases hmem
  | cons m ms ih =>
    obtain ⟨hm, hms⟩ := nonIntegralAny?_cons_eq_none.mp h
    obtain rfl | hmem := List.mem_cons.mp hmem
    · exact hm
    · exact ih hms hmem

/-- Below a constant there is only its token. -/
theorem Node.Proper.kind_below_literal {n c m : Node} (h : n.Proper) (hkind : n.kind = .literal)
    {i : Nat} {path : List Nat} (hc : n.child? i = some c) (hpath : c.follow path = some m) :
    m.kind = .terminal := by
  have hfits := h.fits
  have hmem := List.mem_of_getElem? (Node.child?_eq_some.mp hc).1
  rw [hkind] at hfits
  -- a constant has one leaf below it and nothing else
  match hchildren : n.children with
  | [leaf] =>
    rw [hchildren] at hfits hmem
    obtain rfl := List.mem_singleton.mp hmem
    obtain ⟨-, hnone, hterm, -⟩ := Node.text_of_isTerm hfits
    cases path with
    | nil =>
      obtain rfl := Option.some.inj hpath
      exact hterm
    | cons j path =>
      obtain ⟨d, hd, -⟩ := Node.follow_cons_eq_some.mp hpath
      rw [Node.child?_eq_some, hnone] at hd
      cases hd.1
  | [] | _ :: _ :: _ =>
    rw [hchildren] at hfits
    cases hfits

/-- A path to a constant that no index may hold leads through a call or another index. -/
theorem Node.exists_guard {e lit : Node} {path : List Nat} (h : e.nonIntegral? = none)
    (hproper : ∀ q m, m ≠ .absent → e.follow q = some m → m.Proper)
    (hpath : e.follow path = some lit) (hlit : lit.isNonInteger) :
    ∃ q m, q <+: path ∧ e.follow q = some m ∧ (m.kind = .call ∨ m.kind = .index) := by
  -- on the path: the first call or element on it is the guard
  induction path generalizing e with
  | nil =>
    obtain rfl := Option.some.inj hpath
    rw [nonIntegral?_of_isNonInteger hlit] at h
    cases h
  | cons i path ih =>
    obtain ⟨c, hc, hbelow⟩ := Node.follow_cons_eq_some.mp hpath
    have hmem := List.mem_of_getElem? (Node.child?_eq_some.mp hc).1
    cases e with
    | absent => cases hmem
    | mk id kind token children =>
      by_cases hguard : kind = .call ∨ kind = .index
      · exact ⟨[], _, List.nil_prefix, rfl, hguard⟩
      · rw [not_or] at hguard
        -- a literal has a terminal below it, and no literal
        have hliteral : kind ≠ .literal := by
          intro hkind
          have hproper : (Node.mk id kind token children).Proper := hproper [] _ (by simp) rfl
          have hterm := hproper.kind_below_literal hkind hc hbelow
          rw [hlit.1] at hterm
          cases hterm
        rw [nonIntegral?_mk hliteral hguard.2 hguard.1] at h
        obtain ⟨q, m, hq, hm, hkind⟩ := ih (nonIntegral?_of_mem h hmem)
          (fun q m hm hq => hproper (i :: q) m hm (Node.follow_cons_eq_some.mpr ⟨c, hc, hq⟩)) hbelow
        exact ⟨i :: q, m, List.cons_prefix_cons.mpr ⟨rfl, hq⟩,
          Node.follow_cons_eq_some.mpr ⟨c, hc, hm⟩, hkind⟩

/-! ## Programs

At the top functions are allowed, and everything else is a statement outside all loops. -/

/-- The parts of a function are outside all loops. -/
theorem Shape.sound_parts (parts : FunctionParts) (body : Stmts) (h : body.Valid false) :
    ∀ c ∈ (Item.function parts body).node.children, c.Sound false := by
  have hparams : (Node.mk parts.paramsTag.id .params parts.paramsTag.token
      (parts.params.map (·.node))).Sound false := by
    refine Node.sound_of_children (by decide) ?_ fun n hn => ?_
    · show (parts.params.map (·.node)).all (·.isTerm Token.isName) = true
      rw [List.all_map, List.all_eq_true]
      exact fun p _ => p.isName
    · obtain ⟨p, -, rfl⟩ := List.mem_map.mp hn
      exact p.sound
  show ∀ c ∈ [parts.name.node, _, parts.tags.node body.nodes], Node.Sound false c
  rw [List.forall_mem_cons, List.forall_mem_cons, List.forall_mem_singleton]
  exact ⟨parts.name.sound, hparams, parts.tags.sound body.kind_nodes (body.sound h)⟩

/-- Below a thing at the top, the only function is the thing itself, and breaks are in loops. -/
theorem Shape.Item.sound (item : Item) (h : item.Valid) {path : List Nat} {m : Node}
    (hm : m ≠ .absent) (hpath : item.node.follow path = some m) :
    m.Proper ∧ (m.kind = .funcDef → path = []) ∧ (m.kind = .breakStmt → item.node.InLoop path) := by
  cases item with
  | stmt s =>
    obtain ⟨hproper, hfunc, hbreak⟩ := s.sound h path m hm hpath
    exact ⟨hproper, fun hk => absurd hk hfunc, fun hk => (hbreak hk).resolve_left nofun⟩
  | function parts body =>
    -- a function is its own item, and below it there is no other one
    cases path with
    | nil =>
      obtain rfl := Option.some.inj hpath
      refine ⟨Node.proper_mk nofun ?_, fun _ => rfl, nofun⟩
      show (parts.name.token.isName && true && true) = true
      rw [parts.name.isName]
      rfl
    | cons i path =>
      obtain ⟨c, hc, hbelow⟩ := Node.follow_cons_eq_some.mp hpath
      have hmem := List.mem_of_getElem? (Node.child?_eq_some.mp hc).1
      obtain ⟨hproper, hfunc, hbreak⟩ := sound_parts parts body h c hmem path m hm hbelow
      exact ⟨hproper, fun hk => absurd hk hfunc,
        fun hk => .below hc ((hbreak hk).resolve_left nofun)⟩

/-- What stands at the top of a program is of a kind of statements. -/
theorem Shape.Item.kind_isStmt (item : Item) : item.node.kind.isStmt = true := by
  cases item with
  | stmt s => exact s.kind_isStmt
  | function => rfl

/-- The functions of a program are the things at its top, and its breaks are in loops. -/
theorem Shape.Script.sound (s : Script) (h : ∀ i ∈ s.items, i.Valid) {path : List Nat} {m : Node}
    (hm : m ≠ .absent) (hpath : s.node.follow path = some m) :
    m.Proper ∧ (m.kind = .funcDef → ∃ i, path = [0, i]) ∧
      (m.kind = .breakStmt → s.node.InLoop path) := by
  match path with
  | [] =>
    obtain rfl := Option.some.inj hpath
    exact ⟨Node.proper_mk nofun rfl, nofun, nofun⟩
  | i :: path =>
    obtain ⟨list, hlist, hpath⟩ := Node.follow_cons_eq_some.mp hpath
    have hlist' := (Node.child?_eq_some.mp hlist).1
    -- the only child of a program is its list
    match i with
    | 0 =>
      obtain rfl := Option.some.inj hlist'
      match path with
      | [] =>
        obtain rfl := Option.some.inj hpath
        refine ⟨Node.proper_mk nofun ?_, nofun, nofun⟩
        show (s.items.map Item.node).all (·.kind.isStmt) = true
        rw [List.all_map, List.all_eq_true]
        exact fun item _ => item.kind_isStmt
      | j :: path =>
        obtain ⟨c, hc, hpath⟩ := Node.follow_cons_eq_some.mp hpath
        obtain ⟨item, hitem, rfl⟩ :=
          List.mem_map.mp (List.mem_of_getElem? (Node.child?_eq_some.mp hc).1)
        obtain ⟨hproper, hfunc, hbreak⟩ := item.sound (h item hitem) hm hpath
        exact ⟨hproper, fun hk => ⟨j, by rw [hfunc hk]⟩, fun hk => .below hlist (.below hc (hbreak hk))⟩

/-- What holds of a tree that a parse made: it has all the nodes that were made, each at the place of
its id and at the end of one path, with the children and the operator of its kind. -/
structure WellFormed (root : Node) (made : Nat) : Prop where
  top : root.kind = .program
  numbered : root.arena.map Node.id = (List.range made).map Int.ofNat
  reached : ∀ n ∈ root.arena, ∃! path, root.follow path = some n
  children : ∀ n ∈ root.arena, Node.fits n.kind n.children = true
  arithmetic : ∀ n ∈ root.arena, n.kind = .binary → ∃ op, n.op? = some op ∧ Handled op.text
  boolean : ∀ n ∈ root.arena, n.kind = .compare ∨ n.kind = .logic →
    ∃ op, n.op? = some op ∧ (BoolOp.ofText? op.text).isSome = true
  sign : ∀ n ∈ root.arena, n.kind = .unary → ∃ op, n.op? = some op ∧ op.text ∈ signs
  functions : ∀ path n, root.follow path = some n → n.kind = .funcDef → ∃ i, path = [0, i]
  breaks : ∀ path n, root.follow path = some n → n.kind = .breakStmt → root.InLoop path
  indices : ∀ n ∈ root.arena, n.kind = .index → ∃ e, n.child? 2 = some e ∧
    ∀ path lit, e.follow path = some lit → lit.isNonInteger →
      ∃ q m, q <+: path ∧ e.follow q = some m ∧ (m.kind = .call ∨ m.kind = .index)

theorem Node.ne_absent_of_kind {n : Node} (h : n.kind ≠ .terminal) : n ≠ .absent := by
  rintro rfl
  exact h rfl

/-- The index of an element access is a child of it. -/
theorem Node.Proper.exists_index {n : Node} (h : n.Proper) (hkind : n.kind = .index) :
    ∃ e, n.child? 2 = some e := by
  have hfits := h.fits
  rw [hkind] at hfits
  match hchildren : n.children with
  | [array, opening, e, closing] =>
    rw [hchildren] at hfits
    refine ⟨e, Node.child?_eq_some.mpr ⟨by rw [hchildren]; rfl, ?_⟩⟩
    rintro rfl
    have hexpr := (Bool.and_eq_true_iff.mp (Bool.and_eq_true_iff.mp hfits).1).2
    cases hexpr
  | [] | [_] | [_, _] | [_, _, _] | _ :: _ :: _ :: _ :: _ :: _ =>
    rw [hchildren] at hfits
    cases hfits

/-- A program whose items are valid, with ids that are those of some count, is well formed. -/
theorem Shape.Script.wellFormed (s : Script) (h : ∀ i ∈ s.items, i.Valid) {made : Nat}
    (hcount : ∀ i : Int, s.node.ids.count i = if 0 ≤ i ∧ i < made then 1 else 0) :
    WellFormed s.node made := by
  have hnodup : s.node.ids.Nodup := by
    rw [List.nodup_iff_count]
    intro i
    rw [hcount i]
    split <;> omega
  have hproper : ∀ n ∈ s.node.arena, n.Proper := by
    intro n hn
    obtain ⟨habsent, path, hpath⟩ := Node.mem_nodes_iff.mp (Node.mem_arena.mp hn)
    exact (s.sound h habsent hpath).1
  refine {
    top := rfl
    numbered := Node.map_id_arena hcount
    reached := fun n hn => ?_
    children := fun n hn => (hproper n hn).fits
    arithmetic := fun n hn => (hproper n hn).operator.1
    boolean := fun n hn => (hproper n hn).operator.2.1
    sign := fun n hn => (hproper n hn).operator.2.2
    functions := fun path n hpath hkind => ?_
    breaks := fun path n hpath hkind => ?_
    indices := fun n hn hkind => ?_ }
  · obtain ⟨habsent, path, hpath⟩ := Node.mem_nodes_iff.mp (Node.mem_arena.mp hn)
    exact ⟨path, hpath, fun q hq => Node.follow_inj hnodup habsent habsent hq hpath rfl⟩
  · exact (s.sound h (Node.ne_absent_of_kind (by rw [hkind]; decide)) hpath).2.1 hkind
  · exact (s.sound h (Node.ne_absent_of_kind (by rw [hkind]; decide)) hpath).2.2 hkind
  · obtain ⟨-, above, habove⟩ := Node.mem_nodes_iff.mp (Node.mem_arena.mp hn)
    obtain ⟨e, he⟩ := (hproper n hn).exists_index hkind
    refine ⟨e, he, fun path lit hpath hlit => ?_⟩
    refine Node.exists_guard ((hproper n hn).integral hkind e he) (fun q m hm hq => ?_) hpath hlit
    -- below an index the nodes are proper as all nodes of the program are
    have hroot : s.node.follow (above ++ 2 :: q) = some m := by
      rw [Node.follow_append, habove]
      exact Node.follow_cons_eq_some.mpr ⟨e, he, hq⟩
    exact (s.sound h hm hroot).1

/-- A source that parses gives a well-formed tree, which has every node that the parse made. -/
theorem wellFormed_of_parse {src : Source} {root : Node} (h : parse src = .ok root) :
    ∃ c, (Parser.program ((lex src).tokens.length + 1)).run (.start (lex src)) = .ok (root, c) ∧
      WellFormed root c.nextId := by
  obtain ⟨c, hrun⟩ := exists_run_of_parse h
  obtain ⟨⟨s, rfl, hitems⟩, sig, hread⟩ :=
    Parser.made_program _ _ (Cursor.sound_start src) root c hrun
  exact ⟨c, hrun, s.wellFormed hitems hread.count_ids⟩

/-- A function with a break below a branch in its loop, and an operator of each sort. -/
def searching : Source := .ofString "def f(a)
while a[2 * 1] < 3
if not a
break
end
end
end
"

theorem wellFormed_searching :
    ∃ root, parse searching = .ok root ∧
      ∃ c, (Parser.program ((lex searching).tokens.length + 1)).run (.start (lex searching)) =
        .ok (root, c) ∧ WellFormed root c.nextId := by
  have hok : (parse searching).isOk = true := by decide +kernel
  cases hparse : parse searching with
  | error e => rw [hparse] at hok; cases hok
  | ok root => exact ⟨root, rfl, wellFormed_of_parse hparse⟩

end ScriptPir

import ScriptPir.Tree.Expression

/-!
# The shape of parsed trees

A node says of itself only its kind and its children. The trees that the parser makes have a much
narrower shape, which this module gives as types of their own:

* `Shape.Expr` and `Shape.Args` — expressions and argument lists;
* `Shape.Simple`, `Shape.Stmt`, `Shape.Stmts` and `Shape.Arms` — statements;
* `Shape.Script` — a whole program, with its functions at the top.

Every shape has its `node`, the tree it is the shape of. What the parser checks about single tokens
(that a name is a name, that a constant has a value) is carried by the leaves, so that a shape with a
bad leaf cannot be built.
-/

namespace ScriptPir

mutual

/-- The ids in a tree, in the order in which a walk enters its nodes. -/
def Node.ids : Node → List Int
  | .absent => []
  | .mk id _ _ children => id :: idsAll children

/-- The ids in some trees. -/
def Node.idsAll : List Node → List Int
  | [] => []
  | n :: ns => n.ids ++ idsAll ns

end

/-- The ids of two lists of trees stand one behind the other. -/
theorem Node.idsAll_append (ms ns : List Node) :
    Node.idsAll (ms ++ ns) = Node.idsAll ms ++ Node.idsAll ns := by
  induction ms with
  | nil => rfl
  | cons m ms ih => simp [Node.idsAll, ih]

/-- The ids of a tree are among those of the list it stands in, in order. -/
theorem Node.ids_sublist_idsAll {n : Node} {ns : List Node} (h : n ∈ ns) :
    n.ids.Sublist (Node.idsAll ns) := by
  induction ns with
  | nil => cases h
  | cons m ms ih =>
    rw [Node.idsAll]
    obtain rfl | h := List.mem_cons.mp h
    · exact List.sublist_append_left ..
    · exact (ih h).trans (List.sublist_append_right ..)

/-- A tree that is there has its own id. -/
theorem Node.id_mem_ids (n : Node) (h : n ≠ .absent) : n.id ∈ n.ids := by
  cases n with
  | absent => exact absurd rfl h
  | mk => exact List.mem_cons_self

namespace Shape

/-! ## Leaves

A leaf is a node around a token. What the parser has checked about the token stands in the leaf, so
that what is built of leaves needs no further assumptions. -/

/-- A token in a tree. -/
structure Leaf where
  id : Int
  token : Token

/-- The text of a leaf. -/
def Leaf.text (l : Leaf) : String := l.token.text

/-- The tree of a leaf. -/
def Leaf.node (l : Leaf) : Node := .mk l.id .terminal l.token []

@[simp] theorem Leaf.text_node (l : Leaf) : l.node.text = l.text := by
  simp [Leaf.node, Node.text, Leaf.text]

theorem Leaf.node_ne_absent (l : Leaf) : l.node ≠ .absent := nofun

/-- The id of an inner node, and the first token of its production. -/
structure Tag where
  id : Int
  token : Token

/-- A constant, with its value. -/
structure Constant extends Leaf where
  value : Value
  literal_eq : literal token = .ok value

/-- The name of a variable or a function. -/
structure Name extends Leaf where
  isName : token.isName = true

/-- The name of a global, with its dollar sign. -/
structure Global extends Leaf where
  kind_eq : token.kind = .global

/-- An operator that stands before its operand. -/
structure Sign extends Leaf where
  isSign : Parser.isSign token = true

/-- An operator between two operands. -/
structure BinaryOp extends Leaf where
  op : Operator
  ofToken_eq : Operator.ofToken? token = some op

/-- A bracket of a given kind. -/
structure Bracket (kind : TokenKind) (text : String) extends Leaf where
  kind_eq : token.kind = kind
  text_eq : token.text = text

/-- An assignment operator. -/
structure AssignOp extends Leaf where
  isAssign : token.isAssign = true

/-- A plain equals sign. -/
structure EqualsSign extends Leaf where
  isEquals : token.isOp "=" = true

/-- A string that names a library. -/
structure Library extends Constant where
  kind_eq : token.kind = .string

/-- A block of target code. -/
structure TargetCode extends Leaf where
  kind_eq : token.kind = .pir

/-- A sign is an operator or the word `not`. -/
theorem isSign_kind {t : Token} (h : Parser.isSign t = true) :
    t.kind = .op ∨ (t.kind = .ident ∧ t.text = "not") := by
  simp only [Parser.isSign, Token.isOp, Token.isKeyword, Bool.or_eq_true, Bool.and_eq_true,
    decide_eq_true_eq] at h
  obtain (⟨h, -⟩ | ⟨h, -⟩) | h := h
  · exact .inl h
  · exact .inl h
  · exact .inr h

theorem isName_kind {t : Token} (h : t.isName = true) :
    t.kind = .ident ∧ t.text ∉ Token.keywords := by
  simpa [Token.isName] using h

/-- A name is no sign. -/
theorem isSign_of_isName {t : Token} (h : t.isName = true) : Parser.isSign t = false := by
  obtain ⟨hkind, htext⟩ := isName_kind h
  rw [← Bool.not_eq_true]
  intro hsign
  obtain hop | ⟨-, hnot⟩ := isSign_kind hsign
  · rw [hop] at hkind; cases hkind
  · exact htext (by rw [hnot]; decide)

/-- A token with a value is a number, a string or a truth value. -/
theorem literal_kind {t : Token} {v : Value} (h : literal t = .ok v) :
    t.kind = .int ∨ t.kind = .float ∨ t.kind = .string ∨
      (t.kind = .ident ∧ (t.text = "true" ∨ t.text = "false")) := by
  unfold literal at h
  split at h
  · exact .inl ‹_›
  · exact .inr (.inl ‹_›)
  · exact .inr (.inr (.inl ‹_›))
  · rename_i hkind
    refine .inr (.inr (.inr ⟨hkind, ?_⟩))
    split at h
    · exact .inl ‹_›
    · split at h
      · exact .inr ‹_›
      · cases h
  · cases h

/-! ## Expressions

Two nodes of the tree have no meaning of their own: the identifier around the name of an array, and
the list around arguments. Their ids are kept in `ElementParts` and `CallParts`. -/

/-- What an element access has beside its index. -/
structure ElementParts where
  id : Int
  arrayId : Int
  array : Name
  opening : Bracket .opening "["
  closing : Bracket .closing "]"

/-- What a call has beside its arguments. -/
structure CallParts where
  id : Int
  callee : Name
  args : Tag

mutual

/-- An expression. -/
inductive Expr where
  | constant (id : Int) (leaf : Constant)
  | var (id : Int) (name : Name)
  | global (id : Int) (name : Global)
  | paren (id : Int) (opening : Bracket .opening "(") (inner : Expr) (closing : Bracket .closing ")")
  | unary (id : Int) (sign : Sign) (operand : Expr)
  | operation (id : Int) (left : Expr) (op : BinaryOp) (right : Expr)
  | element (parts : ElementParts) (index : Expr)
  | call (parts : CallParts) (args : Args)

/-- The arguments of a call. -/
inductive Args where
  | nil
  | cons (id : Int) (name : Option Name) (value : Expr) (rest : Args)

end

/-- The id of an expression's node. -/
def Expr.id : Expr → Int
  | constant id _ | var id _ | global id _ | paren id .. | unary id .. | operation id .. => id
  | element parts _ => parts.id
  | call parts _ => parts.id

/-- The first token of an expression. -/
def Expr.token : Expr → Token
  | constant _ leaf => leaf.token
  | var _ name => name.token
  | global _ name => name.token
  | paren _ opening .. => opening.token
  | unary _ sign _ => sign.token
  | operation _ left .. => left.token
  | element parts _ => parts.array.token
  | call parts _ => parts.callee.token

/-- The tree of an argument, from the tree of its value and the first token of that. -/
def argNode (id : Int) (name : Option Name) (token : Token) (value : Node) : Node :=
  match name with
  | none => .mk id .arg token [value]
  | some name => .mk id .arg name.token [name.node, value]

mutual

/-- The tree of an expression. -/
def Expr.node : Expr → Node
  | .constant id leaf => .mk id .literal leaf.token [leaf.node]
  | .var id name => .mk id .ident name.token [name.node]
  | .global id name => .mk id .globalRef name.token [name.node]
  | .paren id opening inner closing =>
    .mk id .paren opening.token [opening.node, inner.node, closing.node]
  | .unary id sign operand => .mk id .unary sign.token [sign.node, operand.node]
  | .operation id left op right =>
    .mk id op.op.kind left.token [left.node, op.node, right.node]
  | .element parts index =>
    .mk parts.id .index parts.array.token
      [.mk parts.arrayId .ident parts.array.token [parts.array.node], parts.opening.node,
        index.node, parts.closing.node]
  | .call parts args =>
    .mk parts.id .call parts.callee.token
      [parts.callee.node, .mk parts.args.id .args parts.args.token args.nodes]

/-- The trees of arguments. -/
def Args.nodes : Args → List Node
  | .nil => []
  | .cons id name value rest => argNode id name value.token value.node :: rest.nodes

end

@[simp] theorem Expr.node_id (e : Expr) : e.node.id = e.id := by
  cases e <;> rfl

@[simp] theorem Expr.node_token (e : Expr) : e.node.token = e.token := by
  cases e <;> rfl

theorem Expr.node_ne_absent (e : Expr) : e.node ≠ .absent := by
  cases e <;> exact nofun

/-- The id of an expression is among those of its tree. -/
theorem Expr.id_mem_ids (e : Expr) : e.id ∈ e.node.ids := by
  rw [← Expr.node_id]
  exact e.node.id_mem_ids e.node_ne_absent

/-! ## Simple statements

Assignments are a type of their own, since the header of a loop may hold them and nothing else. -/

/-- An assignment of the kinds that a loop's header may hold. -/
inductive Assignment where
  /-- An assignment to a variable. -/
  | assign (id : Int) (name : Name) (op : AssignOp) (value : Expr)
  /-- An assignment of an empty array. -/
  | arrayInit (id : Int) (name : Name) (op : EqualsSign)
  /-- An assignment to an element. -/
  | store (id : Int) (target : ElementParts) (index : Expr) (op : EqualsSign) (value : Expr)
  /-- An assignment from a global. -/
  | globalGet (id : Int) (name : Name) (op : EqualsSign) (global : Global)

/-- The tree of an assignment. -/
def Assignment.node : Assignment → Node
  | assign id name op value => .mk id .assign name.token [name.node, op.node, value.node]
  | arrayInit id name op => .mk id .arrayInit name.token [name.node, op.node]
  | store id target index op value =>
    .mk id .indexAssign target.array.token [(Expr.element target index).node, op.node, value.node]
  | globalGet id name op global =>
    .mk id .globalGet name.token [name.node, op.node, global.node]

/-- A statement without a block. -/
inductive Simple where
  | assignment (a : Assignment)
  | globalSet (id : Int) (global : Global) (op : EqualsSign) (value : Expr)
  | require (tag : Tag) (library : Library)
  | target (id : Int) (code : TargetCode)
  /-- A call whose result is not used. -/
  | call (id : Int) (parts : CallParts) (args : Args)

/-- The tree of a simple statement. -/
def Simple.node : Simple → Node
  | assignment a => a.node
  | globalSet id global op value =>
    .mk id .globalSet global.token [global.node, op.node, value.node]
  | require tag library => .mk tag.id .require tag.token [library.node]
  | target id code => .mk id .inlinePir code.token [code.node]
  | call id parts args => .mk id .callStmt parts.callee.token [(Expr.call parts args).node]

/-! ## Statements with blocks

An `unless` is a branch with a mark; the further arms of a branch are a list that ends with an `else`
or with nothing. -/

/-- The condition of a branch or loop. -/
structure Cond where
  id : Int
  expr : Expr

/-- The tree of a condition. -/
def Cond.node (c : Cond) : Node := .mk c.id .cond c.expr.token [c.expr.node]

/-- The nodes around the statements of a block. -/
structure BlockTags where
  body : Tag
  list : Tag

/-- The assignments in one part of a loop's header. -/
structure Clause where
  tag : Tag
  assignments : List Assignment

/-- The tree of a part of a loop's header. -/
def Clause.node (c : Clause) (kind : Kind) : Node :=
  .mk c.tag.id kind c.tag.token (c.assignments.map Assignment.node)

mutual

/-- A statement inside a program or a function. -/
inductive Stmt where
  | simple (s : Simple)
  | ret (tag : Tag) (value : Option Expr)
  | brk (tag : Tag)
  /-- A branch, negated if it starts with `unless`. -/
  | branch (tag : Tag) (negated : Bool) (cond : Cond) (tags : BlockTags) (body : Stmts)
      (arms : Arms)
  | whileLoop (tag : Tag) (cond : Cond) (tags : BlockTags) (body : Stmts)
  | forLoop (tag : Tag) (init : Clause) (cond : Cond) (step : Clause) (tags : BlockTags)
      (body : Stmts)

/-- A list of statements. -/
inductive Stmts where
  | nil
  | cons (first : Stmt) (rest : Stmts)

/-- The arms of a branch after its first. -/
inductive Arms where
  | none
  | last (tag : Tag) (tags : BlockTags) (body : Stmts)
  | elsif (tag : Tag) (cond : Cond) (tags : BlockTags) (body : Stmts) (rest : Arms)

end

/-- The tree of a block, from the trees of its statements. -/
def BlockTags.node (t : BlockTags) (stmts : List Node) : Node :=
  .mk t.body.id .body t.body.token [.mk t.list.id .stmtList t.list.token stmts]

mutual

/-- The tree of a statement. -/
def Stmt.node : Stmt → Node
  | .simple s => s.node
  | .ret tag none => .mk tag.id .returnStmt tag.token []
  | .ret tag (some value) => .mk tag.id .returnStmt tag.token [value.node]
  | .brk tag => .mk tag.id .breakStmt tag.token []
  | .branch tag negated cond tags body arms =>
    .mk tag.id (if negated then .unlessStmt else .ifStmt) tag.token
      (cond.node :: tags.node body.nodes :: arms.nodes)
  | .whileLoop tag cond tags body =>
    .mk tag.id .whileLoop tag.token [cond.node, tags.node body.nodes]
  | .forLoop tag init cond step tags body =>
    .mk tag.id .forLoop tag.token
      [init.node .forInit, cond.node, step.node .forStep, tags.node body.nodes]

/-- The trees of statements. -/
def Stmts.nodes : Stmts → List Node
  | .nil => []
  | .cons first rest => first.node :: rest.nodes

/-- The trees of the further arms of a branch. -/
def Arms.nodes : Arms → List Node
  | .none => []
  | .last tag tags body => [.mk tag.id .elseArm tag.token [tags.node body.nodes]]
  | .elsif tag cond tags body rest =>
    .mk tag.id .elsifArm tag.token [cond.node, tags.node body.nodes] :: rest.nodes

end

/-! ## Programs

Functions stand at the top only. A statement type without them says so once and for all. -/

/-- What a function definition has beside its body. -/
structure FunctionParts where
  tag : Tag
  name : Name
  paramsTag : Tag
  params : List Name
  tags : BlockTags

/-- Something at the top of a program. -/
inductive Item where
  | stmt (s : Stmt)
  | function (parts : FunctionParts) (body : Stmts)

/-- The tree of a thing at the top of a program. -/
def Item.node : Item → Node
  | stmt s => s.node
  | function parts body =>
    .mk parts.tag.id .funcDef parts.tag.token
      [parts.name.node,
        .mk parts.paramsTag.id .params parts.paramsTag.token (parts.params.map (·.node)),
        parts.tags.node body.nodes]

/-- A program. -/
structure Script where
  tag : Tag
  list : Tag
  items : List Item

/-- The tree of a program. -/
def Script.node (s : Script) : Node :=
  .mk s.tag.id .program s.tag.token
    [.mk s.list.id .stmtList s.list.token (s.items.map Item.node)]

/-! ## What the parser checks beyond the shape

Two checks are not about single tokens: a constant in an index has to be an integer, and a `break`
has to stand in a loop. -/

/-- Outside constants, calls and indices, the check looks into all children. -/
theorem nonIntegral?_mk {id : Int} {kind : Kind} {token : Token} {children : List Node}
    (hliteral : kind ≠ .literal) (hindex : kind ≠ .index) (hcall : kind ≠ .call) :
    (Node.mk id kind token children).nonIntegral? = Node.nonIntegralAny? children := by
  cases kind <;> simp_all [Node.nonIntegral?]

/-- If some trees have a constant that is no integer, one of them has it. -/
theorem nonIntegralAny?_eq_some {bad : Node} {ns : List Node} (h : Node.nonIntegralAny? ns = some bad) :
    ∃ n ∈ ns, n.nonIntegral? = some bad := by
  induction ns with
  | nil => cases h
  | cons n ns ih =>
    rw [Node.nonIntegralAny?] at h
    cases hn : n.nonIntegral? with
    | some found =>
      rw [hn] at h
      exact ⟨n, List.mem_cons_self, hn.trans h⟩
    | none =>
      rw [hn] at h
      obtain ⟨m, hm, hbad⟩ := ih h
      exact ⟨m, List.mem_cons_of_mem _ hm, hbad⟩

mutual

/-- No index of an expression holds a constant that is no integer. -/
def Expr.Indexed : Expr → Prop
  | .constant .. | .var .. | .global .. => True
  | .paren _ _ inner _ => inner.Indexed
  | .unary _ _ operand => operand.Indexed
  | .operation _ left _ right => left.Indexed ∧ right.Indexed
  | .element _ index => index.node.nonIntegral? = none ∧ index.Indexed
  | .call _ args => args.Indexed

/-- No index of some arguments holds a constant that is no integer. -/
def Args.Indexed : Args → Prop
  | .nil => True
  | .cons _ _ value rest => value.Indexed ∧ rest.Indexed

end

/-- The expressions of an assignment are indexed by integers. -/
def Assignment.Indexed : Assignment → Prop
  | assign _ _ _ value => value.Indexed
  | store _ target index _ value => (Expr.element target index).Indexed ∧ value.Indexed
  | arrayInit .. | globalGet .. => True

/-- The expressions of a simple statement are indexed by integers. -/
def Simple.Indexed : Simple → Prop
  | assignment a => a.Indexed
  | globalSet _ _ _ value => value.Indexed
  | call _ _ args => args.Indexed
  | require .. | target .. => True

/-- The expressions in a part of a loop's header are indexed by integers. -/
def Clause.Indexed (c : Clause) : Prop := ∀ a ∈ c.assignments, a.Indexed

/-- No further condition follows. -/
def Arms.IsLast : Arms → Prop
  | .none | .last .. => True
  | .elsif .. => False

mutual

/-- A statement leaves only loops that are around it, inside a loop or not, and a negated branch has
no condition but its first. -/
def Stmt.Valid (inLoop : Bool) : Stmt → Prop
  | .simple s => s.Indexed
  | .ret _ value => ∀ e, value = some e → e.Indexed
  | .brk _ => inLoop = true
  | .branch _ negated cond _ body arms =>
    cond.expr.Indexed ∧ body.Valid inLoop ∧ arms.Valid inLoop ∧ (negated = true → arms.IsLast)
  | .whileLoop _ cond _ body => cond.expr.Indexed ∧ body.Valid true
  | .forLoop _ init cond step _ body =>
    init.Indexed ∧ cond.expr.Indexed ∧ step.Indexed ∧ body.Valid true

/-- Statements leave only loops that are around them. -/
def Stmts.Valid (inLoop : Bool) : Stmts → Prop
  | .nil => True
  | .cons first rest => first.Valid inLoop ∧ rest.Valid inLoop

/-- The arms of a branch leave only loops that are around it. -/
def Arms.Valid (inLoop : Bool) : Arms → Prop
  | .none => True
  | .last _ _ body => body.Valid inLoop
  | .elsif _ cond _ body rest => cond.expr.Indexed ∧ body.Valid inLoop ∧ rest.Valid inLoop

end

/-- What stands at the top of a program is outside all loops. -/
def Item.Valid : Item → Prop
  | stmt s => s.Valid false
  | function _ body => body.Valid false

end Shape

end ScriptPir

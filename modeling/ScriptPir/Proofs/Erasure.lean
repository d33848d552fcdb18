import ScriptPir.Proofs.Registers

/-!
# What a layout takes from a tree

Two trees are equal *up to ids and positions* if they become the same tree when all ids and all places
of tokens are left out (`Node.bare`). What statements are lowered to depends on neither:

* `lowered_eq` — two such expressions have the same value and the same instructions;
* `sameLayout_stmts` — two such blocks, from the same spot on, take as many labels, lead to the same spot
  and are laid out as the same lines, each by an emission of its own.

The statements come with the two emissions that the trees were walked with, since registers and labels
are looked up by id. What is compared is what each emission has for its own tree.
-/

namespace ScriptPir

/-! ## Leaving out ids and positions

Equality of trees can be decided, so that a concrete pair can be compared. For proofs, equality up to
ids and positions is taken apart at the root (`Node.bare_mk_iff`). -/

/-- A token without its place. -/
def Token.bare (t : Token) : Token := { t with line := 0, col := 0 }

mutual

/-- A tree without its ids and the places of its tokens. -/
def Node.bare : Node → Node
  | .absent => .absent
  | .mk _ kind token children => .mk 0 kind token.bare (bareAll children)

/-- Some trees without their ids and the places of their tokens. -/
def Node.bareAll : List Node → List Node
  | [] => []
  | n :: ns => n.bare :: bareAll ns

end

mutual

/-- Equality of trees can be decided. -/
def Node.decEq : (m n : Node) → Decidable (m = n)
  | .absent, .absent => isTrue rfl
  | .absent, .mk .. => isFalse nofun
  | .mk .., .absent => isFalse nofun
  | .mk id kind token children, .mk id' kind' token' children' =>
    have := Node.decEqAll children children'
    decidable_of_iff (id = id' ∧ kind = kind' ∧ token = token' ∧ children = children') (by simp)

/-- Equality of lists of trees can be decided. -/
def Node.decEqAll : (ms ns : List Node) → Decidable (ms = ns)
  | [], [] => isTrue rfl
  | [], _ :: _ => isFalse nofun
  | _ :: _, [] => isFalse nofun
  | m :: ms, n :: ns =>
    have := Node.decEq m n
    have := Node.decEqAll ms ns
    decidable_of_iff (m = n ∧ ms = ns) (by simp)

end

instance : DecidableEq Node := Node.decEq

theorem Token.bare_eq_iff {t t' : Token} : t.bare = t'.bare ↔ t.kind = t'.kind ∧ t.text = t'.text := by
  simp [Token.bare]

/-- Trees that are equal up to ids and positions have the same kind. -/
theorem Node.kind_eq_of_bare {n n' : Node} (h : n.bare = n'.bare) : n.kind = n'.kind := by
  have hkind : ∀ m : Node, m.bare.kind = m.kind := fun m => by cases m <;> rfl
  rw [← hkind n, h, hkind]

/-- Such trees have the same kind at the root, the same text, and children that are equal in the same
way. -/
theorem Node.bare_mk_iff {id id' : Int} {kind kind' : Kind} {token token' : Token}
    {children children' : List Node} :
    (Node.mk id kind token children).bare = (Node.mk id' kind' token' children').bare ↔
      kind = kind' ∧ token.bare = token'.bare ∧ bareAll children = bareAll children' := by
  simp [Node.bare]

theorem Node.bareAll_cons_iff {n n' : Node} {ns ns' : List Node} :
    bareAll (n :: ns) = bareAll (n' :: ns') ↔ n.bare = n'.bare ∧ bareAll ns = bareAll ns' := by
  simp [bareAll]

namespace Shape

open Lowered

/-! ## Leaves

All that is ever read off a leaf is its kind and its text: the value of a literal, the name of a
global, an operator, the name of an argument. -/

theorem Leaf.bare_iff {l l' : Leaf} :
    l.node.bare = l'.node.bare ↔ l.token.kind = l'.token.kind ∧ l.text = l'.text := by
  simp [Leaf.node, Node.bare_mk_iff, Token.bare_eq_iff, Leaf.text]

theorem Leaf.text_eq_of_bare {l l' : Leaf} (h : l.node.bare = l'.node.bare) : l.text = l'.text :=
  (Leaf.bare_iff.mp h).2

/-- The value of a constant is read off its kind and its text. -/
theorem Constant.value_eq {c c' : Constant} (h : c.node.bare = c'.node.bare) : c.value = c'.value := by
  obtain ⟨hkind, htext⟩ := Leaf.bare_iff.mp h
  have htext : c.token.text = c'.token.text := htext
  have hliteral : literal c.token = literal c'.token := by
    unfold literal
    rw [hkind, htext]
  exact Except.ok.inj (c.literal_eq.symm.trans (hliteral.trans c'.literal_eq))

/-- The name of a global is read off its text. -/
theorem Global.globalName_eq {g g' : Global} (h : g.node.bare = g'.node.bare) :
    Lower.globalName g.node = Lower.globalName g'.node := by
  unfold Lower.globalName
  rw [Leaf.text_node, Leaf.text_node, Leaf.text_eq_of_bare h]

/-- What is done with two operands is read off the text of the operator. -/
theorem operated_eq {op op' : BinaryOp} (h : op.text = op'.text) : operated op = operated op' := by
  funext l r
  unfold operated
  rw [h]

/-- The name of an argument is read off its tree. -/
theorem argNode_bare {id id' : Int} {name name' : Option Name} {token token' : Token} {v v' : Node}
    (h : (argNode id name token v).bare = (argNode id' name' token' v').bare) :
    name.map (·.text) = name'.map (·.text) ∧ v.bare = v'.bare := by
  -- a name is one child more, so both arguments have one or neither has
  cases name with
  | none =>
    cases name' with
    | none =>
      simp only [argNode, Node.bare_mk_iff, Node.bareAll_cons_iff] at h
      exact ⟨rfl, h.2.2.1⟩
    | some name' => simp [argNode, Node.bare, Node.bareAll] at h
  | some name =>
    cases name' with
    | none => simp [argNode, Node.bare, Node.bareAll] at h
    | some name' =>
      simp only [argNode, Node.bare_mk_iff, Node.bareAll_cons_iff] at h
      obtain ⟨-, -, hname, hvalue, -⟩ := h
      exact ⟨congrArg some (Leaf.text_eq_of_bare hname), hvalue⟩

/-! ## Expressions

Both statements are by mutual induction on the first tree. Its production decides that of the second
one, since an operator has kinds that no other expression has (`BinaryOp.kind_ne`). -/

theorem BinaryOp.kind_ne {kind : Kind} (op : BinaryOp) (h : kind ∉ [.binary, .compare, .logic]) :
    kind ≠ op.op.kind := by
  rintro rfl
  obtain ⟨hkind, -⟩ | ⟨hkind | hkind, -⟩ := op.kind_cases <;> simp [hkind] at h

mutual

/-- Expressions that are equal up to ids and positions have the same value and the same instructions. -/
theorem lowered_eq (e e' : Expr) (h : e.node.bare = e'.node.bare) : e.lowered = e'.lowered := by
  have hkind := Node.kind_eq_of_bare h
  -- the kind of a node tells which expression it is; operations have three kinds
  cases e with
  | constant id leaf =>
    cases e' with
    | constant id' leaf' =>
      simp only [Expr.node, Node.bare_mk_iff, Node.bareAll_cons_iff] at h
      rw [Expr.lowered, Expr.lowered, Constant.value_eq h.2.2.1]
    | operation _ _ op' _ => exact absurd hkind (op'.kind_ne nofun)
    | _ => cases hkind
  | var id name =>
    cases e' with
    | var id' name' =>
      simp only [Expr.node, Node.bare_mk_iff, Node.bareAll_cons_iff] at h
      rw [Expr.lowered, Expr.lowered, Leaf.text_eq_of_bare h.2.2.1]
    | operation _ _ op' _ => exact absurd hkind (op'.kind_ne nofun)
    | _ => cases hkind
  | global id name =>
    cases e' with
    | global id' name' =>
      simp only [Expr.node, Node.bare_mk_iff, Node.bareAll_cons_iff] at h
      rw [Expr.lowered, Expr.lowered, Global.globalName_eq h.2.2.1]
    | operation _ _ op' _ => exact absurd hkind (op'.kind_ne nofun)
    | _ => cases hkind
  | paren id opening inner closing =>
    cases e' with
    | paren id' opening' inner' closing' =>
      simp only [Expr.node, Node.bare_mk_iff, Node.bareAll_cons_iff] at h
      obtain ⟨-, -, -, hinner, -⟩ := h
      rw [Expr.lowered, Expr.lowered, lowered_eq inner inner' hinner]
    | operation _ _ op' _ => exact absurd hkind (op'.kind_ne nofun)
    | _ => cases hkind
  | unary id sign operand =>
    cases e' with
    | unary id' sign' operand' =>
      simp only [Expr.node, Node.bare_mk_iff, Node.bareAll_cons_iff] at h
      obtain ⟨-, -, hsign, hoperand, -⟩ := h
      rw [Expr.lowered, Expr.lowered, Leaf.text_eq_of_bare hsign, lowered_eq operand operand' hoperand]
    | operation _ _ op' _ => exact absurd hkind (op'.kind_ne nofun)
    | _ => cases hkind
  | operation id left op right =>
    cases e' with
    | operation id' left' op' right' =>
      simp only [Expr.node, Node.bare_mk_iff, Node.bareAll_cons_iff] at h
      obtain ⟨-, -, hleft, hop, hright, -⟩ := h
      rw [Expr.lowered, Expr.lowered, lowered_eq left left' hleft, lowered_eq right right' hright,
        operated_eq (Leaf.text_eq_of_bare hop)]
    | _ => exact absurd hkind.symm (op.kind_ne nofun)
  | element parts index =>
    cases e' with
    | element parts' index' =>
      simp only [Expr.node, Node.bare_mk_iff, Node.bareAll_cons_iff] at h
      obtain ⟨-, -, ⟨-, -, harray, -⟩, -, hindex, -⟩ := h
      rw [Expr.lowered, Expr.lowered, Leaf.text_eq_of_bare harray, lowered_eq index index' hindex]
    | operation _ _ op' _ => exact absurd hkind (op'.kind_ne nofun)
    | _ => cases hkind
  | call parts args =>
    cases e' with
    | call parts' args' =>
      simp only [Expr.node, Node.bare_mk_iff, Node.bareAll_cons_iff] at h
      obtain ⟨-, -, hcallee, ⟨-, -, hargs⟩, -⟩ := h
      rw [Expr.lowered, Expr.lowered, Leaf.text_eq_of_bare hcallee, loweredArgs_eq args args' hargs]
    | operation _ _ op' _ => exact absurd hkind (op'.kind_ne nofun)
    | _ => cases hkind

/-- Arguments that are equal up to ids and positions are lowered alike. -/
theorem loweredArgs_eq (a a' : Args) (h : Node.bareAll a.nodes = Node.bareAll a'.nodes) :
    a.lowered = a'.lowered := by
  cases a with
  | nil =>
    cases a' with
    | nil => rfl
    | cons => cases h
  | cons id name value rest =>
    cases a' with
    | nil => cases h
    | cons id' name' value' rest' =>
      obtain ⟨hargument, hrest⟩ := Node.bareAll_cons_iff.mp h
      obtain ⟨hname, hvalue⟩ := argNode_bare hargument
      rw [Args.lowered, Args.lowered, hname, lowered_eq value value' hvalue,
        loweredArgs_eq rest rest' hrest]

end

/-! ## Simple statements

The same for what stands on one line. Each statement is compared with all others, of which its kind
excludes all but one. -/

theorem Assignment.kind_ne {kind : Kind} (a : Assignment)
    (h : kind ∉ [.assign, .arrayInit, .indexAssign, .globalGet]) : kind ≠ a.node.kind := by
  rintro rfl
  cases a <;> exact h (by simp [Assignment.node, Node.kind])

/-- Assignments have the same code and declare the same variable. -/
theorem assignment_eq (a a' : Assignment) (h : a.node.bare = a'.node.bare) :
    a.code = a'.code ∧ a.after = a'.after := by
  -- both nodes have one kind, so both assignments have one form
  have hkind := Node.kind_eq_of_bare h
  cases a with
  | assign id name op value =>
    cases a' with
    | assign id' name' op' value' =>
      simp only [Assignment.node, Node.bare_mk_iff, Node.bareAll_cons_iff] at h
      obtain ⟨-, -, hname, hop, hvalue, -⟩ := h
      constructor <;> funext σ <;> simp only [Assignment.code, Assignment.after, Expr.assigned,
        Leaf.text_eq_of_bare hname, Leaf.text_eq_of_bare hop, lowered_eq value value' hvalue]
    | _ => cases hkind
  | arrayInit id name op =>
    cases a' with
    | arrayInit id' name' op' =>
      simp only [Assignment.node, Node.bare_mk_iff, Node.bareAll_cons_iff] at h
      constructor <;> funext σ <;>
        simp only [Assignment.code, Assignment.after, Leaf.text_eq_of_bare h.2.2.1]
    | _ => cases hkind
  | store id target index op value =>
    cases a' with
    | store id' target' index' op' value' =>
      simp only [Assignment.node, Node.bare_mk_iff, Node.bareAll_cons_iff] at h
      obtain ⟨-, -, hplace, -, hvalue, -⟩ := h
      constructor <;> funext σ <;> simp only [Assignment.code, Assignment.after, Expr.assigned,
        lowered_eq (.element target index) (.element target' index') hplace,
        lowered_eq value value' hvalue]
    | _ => cases hkind
  | globalGet id name op global =>
    cases a' with
    | globalGet id' name' op' global' =>
      simp only [Assignment.node, Node.bare_mk_iff, Node.bareAll_cons_iff] at h
      obtain ⟨-, -, hname, -, hglobal, -⟩ := h
      constructor <;> funext σ <;> simp only [Assignment.code, Assignment.after,
        Leaf.text_eq_of_bare hname, Global.globalName_eq hglobal]
    | _ => cases hkind

/-- The kinds of simple statements are no others. -/
theorem Simple.kind_ne {kind : Kind} (x : Simple)
    (h : kind ∉ [.assign, .arrayInit, .indexAssign, .globalGet, .globalSet, .require, .inlinePir,
      .callStmt]) : kind ≠ x.node.kind := by
  rintro rfl
  cases x with
  | assignment a => cases a <;> exact h (by simp [Simple.node, Assignment.node, Node.kind])
  | _ => exact h (by simp [Simple.node, Node.kind])

/-- Simple statements have the same code, and lead from any spot to the same one. -/
theorem simple_eq (x x' : Simple) (h : x.node.bare = x'.node.bare) :
    x.code = x'.code ∧ x.after = x'.after := by
  have hkind := Node.kind_eq_of_bare h
  cases x with
  | assignment a =>
    cases x' with
    | assignment a' => exact assignment_eq a a' h
    | _ => exact absurd hkind.symm (a.kind_ne nofun)
  | globalSet id global op value =>
    cases x' with
    | globalSet id' global' op' value' =>
      simp only [Simple.node, Node.bare_mk_iff, Node.bareAll_cons_iff] at h
      obtain ⟨-, -, hglobal, -, hvalue, -⟩ := h
      constructor <;> funext σ <;> simp only [Simple.code, Simple.after, Expr.assigned,
        Global.globalName_eq hglobal, lowered_eq value value' hvalue]
    | assignment a' => exact absurd hkind (a'.kind_ne nofun)
    | _ => cases hkind
  | require tag library =>
    cases x' with
    | require => exact ⟨rfl, rfl⟩
    | assignment a' => exact absurd hkind (a'.kind_ne nofun)
    | _ => cases hkind
  | target id code =>
    cases x' with
    | target id' code' =>
      simp only [Simple.node, Node.bare_mk_iff] at h
      -- the code of the target is a token, whose text alone is emitted
      have htext : code.token.text = code'.token.text := (Token.bare_eq_iff.mp h.2.1).2
      refine ⟨?_, rfl⟩
      funext σ
      rw [Simple.code, Simple.code, htext]
    | assignment a' => exact absurd hkind (a'.kind_ne nofun)
    | _ => cases hkind
  | call id parts args =>
    cases x' with
    | call id' parts' args' =>
      simp only [Simple.node, Expr.node, Node.bare_mk_iff, Node.bareAll_cons_iff] at h
      obtain ⟨-, -, ⟨-, -, hcallee, ⟨-, -, hargs⟩, -⟩, -⟩ := h
      constructor <;> funext σ <;> simp only [Simple.code, Simple.after,
        Leaf.text_eq_of_bare hcallee, loweredArgs_eq args args' hargs]
    | assignment a' => exact absurd hkind (a'.kind_ne nofun)
    | _ => cases hkind

/-! ## Statements with blocks

A block of statements is compared from a spot on: the registers and names that are known there are
the same for both. `SameLayout` therefore says three things at once, since what follows a block
depends on the spot behind it and on the number of labels in it. -/

section Layouts

variable {E E' : Emission}

/-- Emissions of expressions that are equal up to ids and positions agree on them. -/
theorem emitted_eq {e e' : Expr} (h : e.node.bare = e'.node.bare) {s : Supply} (hE : e.Emitted E s)
    (hE' : e'.Emitted E' s) : E.code e.id = E'.code e'.id ∧ E.value e.id = E'.value e'.id := by
  obtain ⟨hcode, hvalue⟩ := hE.at
  obtain ⟨hcode', hvalue'⟩ := hE'.at
  rw [hcode, hvalue, hcode', hvalue', lowered_eq e e' h]
  exact ⟨rfl, rfl⟩

theorem Leg.after_value_eq {e e' : Expr} (h : e.node.bare = e'.node.bare) :
    (Leg.value e).after = (Leg.value e').after := by
  funext σ
  rw [Leg.after, Leg.after, lowered_eq e e' h]

theorem Cond.bare_iff {c c' : Cond} (h : c.node.bare = c'.node.bare) :
    c.expr.node.bare = c'.expr.node.bare := by
  simp only [Cond.node, Node.bare_mk_iff, Node.bareAll_cons_iff] at h
  exact h.2.2.1

theorem BlockTags.bare_iff {t t' : BlockTags} {ns ns' : List Node}
    (h : (t.node ns).bare = (t'.node ns').bare) : Node.bareAll ns = Node.bareAll ns' := by
  simp only [BlockTags.node, Node.bare_mk_iff, Node.bareAll_cons_iff] at h
  exact h.2.2.1.2.2

theorem afterAll_cons (x : Leg) (xs : List Leg) (σ : Spot) :
    afterAll (x :: xs) σ = afterAll xs (x.after σ) := rfl

/-- Assignments one after the other have the same instructions and lead to the same spot. -/
theorem clause_eq {c c' : Clause} {kind : Kind} (h : (c.node kind).bare = (c'.node kind).bare) {σ : Spot}
    (hE : Along (Leg.Emitted E) c.legs σ) (hE' : Along (Leg.Emitted E') c'.legs σ) :
    afterAll c.legs σ = afterAll c'.legs σ ∧ c.code E = c'.code E' := by
  obtain ⟨tag, as⟩ := c
  obtain ⟨tag', as'⟩ := c'
  simp only [Clause.node, Node.bare_mk_iff] at h
  obtain ⟨-, -, h⟩ := h
  simp only [Clause.legs] at hE hE' ⊢
  simp only [Clause.code]
  -- the spot behind each assignment is the same, and the next one starts there
  induction as generalizing as' σ with
  | nil =>
    cases as' with
    | nil => exact ⟨rfl, rfl⟩
    | cons => cases h
  | cons a as ih =>
    cases as' with
    | nil => cases h
    | cons a' as' =>
      obtain ⟨ha, has⟩ := Node.bareAll_cons_iff.mp h
      obtain ⟨⟨hcode, -⟩, hE⟩ := hE
      obtain ⟨⟨hcode', -⟩, hE'⟩ := hE'
      obtain ⟨hsame, hafter⟩ := simple_eq (.assignment a) (.assignment a') ha
      have hspot : (Leg.simple (.assignment a)).after σ = (Leg.simple (.assignment a')).after σ := by
        rw [Leg.after, Leg.after, hafter]
      rw [hspot] at hE
      obtain ⟨hrest, hcodes⟩ := ih hE as' hE' has
      refine ⟨?_, ?_⟩
      · rw [List.map_cons, List.map_cons, afterAll_cons, afterAll_cons, hspot, hrest]
      · have hfirst : E.code a.node.id = E'.code a'.node.id :=
          hcode.trans ((congrFun hsame σ).trans hcode'.symm)
        rw [List.flatMap_cons, List.flatMap_cons, hfirst, hcodes]

/-- Two parts of a subroutine take as many labels, lead from one spot to the same spot and are laid out as
the same lines. -/
structure SameLayout (σ : Spot) (legs legs' : List Leg) (span span' : Nat)
    (lines lines' : Option Label → Nat → List Line) : Prop where
  after : afterAll legs σ = afterAll legs' σ
  span : span = span'
  lines : ∀ exit next, lines exit next = lines' exit next

/-- The arms of a branch are laid out alike. -/
theorem armLines_eq {cond cond' : Cond} {negated : Bool} (h : cond.node.bare = cond'.node.bare)
    {s : Supply} (hE : cond.expr.Emitted E s) (hE' : cond'.expr.Emitted E' s) :
    armLines E negated cond = armLines E' negated cond' := by
  obtain ⟨hcode, hvalue⟩ := emitted_eq (Cond.bare_iff h) hE hE'
  funext onTrue onFalse finish body
  rw [armLines, armLines, hcode, hvalue]

/-- Loops are laid out alike around their bodies. -/
theorem loopLines_eq {cond cond' : Cond} (h : cond.node.bare = cond'.node.bare)
    {s : Supply} (hE : cond.expr.Emitted E s) (hE' : cond'.expr.Emitted E' s) :
    loopLines E cond = loopLines E' cond' := by
  obtain ⟨hcode, hvalue⟩ := emitted_eq (Cond.bare_iff h) hE hE'
  funext top out body step
  rw [loopLines, loopLines, hcode, hvalue]

/-- Whether a branch has further arms is read off its tree. -/
theorem Arms.own_eq {a a' : Arms} (h : Node.bareAll a.nodes = Node.bareAll a'.nodes) :
    a.own = a'.own ∧ a.finish = a'.finish := by
  cases a <;> cases a' <;> first | exact ⟨rfl, rfl⟩ | cases h

/-- The kind of a statement's node. -/
def Stmt.kind : Stmt → Kind
  | .simple x => x.node.kind
  | .ret .. => .returnStmt
  | .brk _ => .breakStmt
  | .branch _ negated .. => if negated then .unlessStmt else .ifStmt
  | .whileLoop .. => .whileLoop
  | .forLoop .. => .forLoop

/-- The kind of a statement is that of its node. -/
theorem Stmt.kind_node (x : Stmt) : x.node.kind = x.kind := by
  cases x with
  | ret tag value => cases value <;> rfl
  | _ => rfl

variable (E E') in
/-- Two statements are laid out alike from any spot on. -/
def SameStmt (x x' : Stmt) : Prop :=
  ∀ σ, Along (Leg.Emitted E) x.legs σ → Along (Leg.Emitted E') x'.legs σ →
    SameLayout σ x.legs x'.legs x.span x'.span (x.lines E) (x'.lines E')

variable (E E') in
/-- Two blocks are laid out alike from any spot on. -/
def SameBlocks (b b' : Stmts) : Prop :=
  ∀ σ, Along (Leg.Emitted E) b.legs σ → Along (Leg.Emitted E') b'.legs σ →
    SameLayout σ b.legs b'.legs b.span b'.span (b.lines E) (b'.lines E')

variable (E E') in
/-- The further arms of two branches are laid out alike from any spot on. -/
def SameArms (a a' : Arms) : Prop :=
  ∀ σ, Along (Leg.Emitted E) a.legs σ → Along (Leg.Emitted E') a'.legs σ →
    afterAll a.legs σ = afterAll a'.legs σ ∧ a.span = a'.span ∧
      ∀ exit finish next, a.lines E exit finish next = a'.lines E' exit finish next

/-- Simple statements are laid out alike. -/
theorem sameStmt_simple {x x' : Simple} (h : x.node.bare = x'.node.bare) :
    SameStmt E E' (.simple x) (.simple x') := by
  intro σ hE hE'
  obtain ⟨hcode, hafter⟩ := simple_eq x x' h
  have hsame : E.code x.node.id = E'.code x'.node.id :=
    hE.1.1.trans ((congrFun hcode σ).trans hE'.1.1.symm)
  refine ⟨congrFun hafter σ, rfl, fun exit next => ?_⟩
  rw [Stmt.lines, Stmt.lines, hsame]

/-- Returns are laid out alike, with a value or without. -/
theorem sameStmt_ret {tag tag' : Tag} {value value' : Option Expr}
    (h : (Stmt.ret tag value).node.bare = (Stmt.ret tag' value').node.bare) :
    SameStmt E E' (.ret tag value) (.ret tag' value') := by
  intro σ hE hE'
  -- trees with and without a value differ in the number of children
  cases value with
  | none =>
    cases value' with
    | none => exact ⟨rfl, rfl, fun _ _ => rfl⟩
    | some e' => cases (Node.bare_mk_iff.mp h).2.2
  | some e =>
    cases value' with
    | none => cases (Node.bare_mk_iff.mp h).2.2
    | some e' =>
      simp only [Stmt.node, Node.bare_mk_iff, Node.bareAll_cons_iff] at h
      obtain ⟨-, -, he, -⟩ := h
      obtain ⟨hcode, hvalue⟩ := emitted_eq he hE.1 hE'.1
      refine ⟨congrFun (Leg.after_value_eq he) σ, rfl, fun exit next => ?_⟩
      rw [Stmt.lines, Stmt.lines, hcode, hvalue]

/-- Branches are laid out alike, if their conditions, bodies and further arms are. -/
theorem sameStmt_branch {tag tag' : Tag} {negated : Bool} {cond cond' : Cond} {tags tags' : BlockTags}
    {body body' : Stmts} {arms arms' : Arms} (hcond : cond.node.bare = cond'.node.bare)
    (hbody : SameBlocks E E' body body') (harms : Node.bareAll arms.nodes = Node.bareAll arms'.nodes)
    (hfurther : SameArms E E' arms arms') :
    SameStmt E E' (.branch tag negated cond tags body arms) (.branch tag' negated cond' tags' body' arms') := by
  intro σ hE hE'
  obtain ⟨hvalue, hE⟩ := hE
  obtain ⟨hvalue', hE'⟩ := hE'
  -- the condition, the block and the further arms follow each other, from spots that agree
  have hspot := congrFun (Leg.after_value_eq (Cond.bare_iff hcond)) σ
  rw [hspot] at hE
  rw [along_append] at hE hE'
  have hbodies := hbody _ hE.1 hE'.1
  have hbetween := hE.2
  rw [hbodies.after] at hbetween
  obtain ⟨hafter, hspan, hlines⟩ := hfurther _ hbetween hE'.2
  obtain ⟨hown, hfinish⟩ := Arms.own_eq harms
  refine ⟨?_, ?_, fun exit next => ?_⟩
  · rw [Stmt.legs, Stmt.legs, afterAll_cons, afterAll_cons, hspot, afterAll_append, afterAll_append,
      hbodies.after, hafter]
  · rw [Stmt.span, Stmt.span, hown, hbodies.span, hspan]
  · rw [Stmt.lines, Stmt.lines, armLines_eq hcond hvalue hvalue', hown, hfinish, hbodies.lines,
      hbodies.span, hlines]

/-- Loops are laid out alike, if their conditions and bodies are. -/
theorem sameStmt_while {tag tag' : Tag} {cond cond' : Cond} {tags tags' : BlockTags}
    {body body' : Stmts} (hcond : cond.node.bare = cond'.node.bare) (hbody : SameBlocks E E' body body') :
    SameStmt E E' (.whileLoop tag cond tags body) (.whileLoop tag' cond' tags' body') := by
  intro σ hE hE'
  obtain ⟨hvalue, hE⟩ := hE
  obtain ⟨hvalue', hE'⟩ := hE'
  have hspot := congrFun (Leg.after_value_eq (Cond.bare_iff hcond)) σ
  rw [hspot] at hE
  have hbodies := hbody _ hE hE'
  refine ⟨?_, ?_, fun exit next => ?_⟩
  · rw [Stmt.legs, Stmt.legs, afterAll_cons, afterAll_cons, hspot, hbodies.after]
  · rw [Stmt.span, Stmt.span, hbodies.span]
  · rw [Stmt.lines, Stmt.lines, loopLines_eq hcond hvalue hvalue', hbodies.lines]

/-- Loops with a header are laid out alike, if the three clauses and the bodies are. -/
theorem sameStmt_for {tag tag' : Tag} {init init' step step' : Clause} {cond cond' : Cond}
    {tags tags' : BlockTags} {body body' : Stmts}
    (hinit : (init.node .forInit).bare = (init'.node .forInit).bare)
    (hcond : cond.node.bare = cond'.node.bare)
    (hstep : (step.node .forStep).bare = (step'.node .forStep).bare) (hbody : SameBlocks E E' body body') :
    SameStmt E E' (.forLoop tag init cond step tags body) (.forLoop tag' init' cond' step' tags' body') := by
  intro σ hE hE'
  rw [Stmt.legs, along_append] at hE hE'
  obtain ⟨hE₁, hvalue, hE⟩ := hE
  obtain ⟨hE₁', hvalue', hE'⟩ := hE'
  -- initialisation, condition, step and block, each from where the one before ended
  obtain ⟨hspot₁, hcode₁⟩ := clause_eq hinit hE₁ hE₁'
  rw [hspot₁] at hvalue hE
  have hspot₂ := congrFun (Leg.after_value_eq (Cond.bare_iff hcond)) (afterAll init'.legs σ)
  rw [hspot₂] at hE
  rw [along_append] at hE hE'
  obtain ⟨hspot₃, hcode₃⟩ := clause_eq hstep hE.1 hE'.1
  have hbetween := hE.2
  rw [hspot₃] at hbetween
  have hbodies := hbody _ hbetween hE'.2
  refine ⟨?_, ?_, fun exit next => ?_⟩
  · rw [Stmt.legs, Stmt.legs, afterAll_append, afterAll_append, hspot₁, afterAll_cons, afterAll_cons,
      hspot₂, afterAll_append, afterAll_append, hspot₃, hbodies.after]
  · rw [Stmt.span, Stmt.span, hbodies.span]
  · rw [Stmt.lines, Stmt.lines, loopLines_eq hcond hvalue hvalue', hbodies.lines, hcode₁, hcode₃]

mutual

/-- Statements that are equal up to ids and positions are laid out alike from the same spot on. -/
theorem sameLayout_stmt (x x' : Stmt) (h : x.node.bare = x'.node.bare) {σ : Spot}
    (hE : Along (Leg.Emitted E) x.legs σ) (hE' : Along (Leg.Emitted E') x'.legs σ) :
    SameLayout σ x.legs x'.legs x.span x'.span (x.lines E) (x'.lines E') := by
  -- the productions are the same by their kinds; `if` and `unless` share one
  have hkind := Node.kind_eq_of_bare h
  rw [Stmt.kind_node, Stmt.kind_node] at hkind
  cases x with
  | simple x =>
    cases x' with
    | simple x' => exact sameStmt_simple h σ hE hE'
    | branch _ negated' => cases negated' <;> exact absurd hkind.symm (x.kind_ne nofun)
    | _ => exact absurd hkind.symm (x.kind_ne nofun)
  | ret tag value =>
    cases x' with
    | ret tag' value' => exact sameStmt_ret h σ hE hE'
    | simple x' => exact absurd hkind (x'.kind_ne nofun)
    | branch _ negated' => cases negated' <;> cases hkind
    | _ => cases hkind
  | brk tag =>
    cases x' with
    | brk tag' => exact ⟨rfl, rfl, fun _ _ => rfl⟩
    | simple x' => exact absurd hkind (x'.kind_ne nofun)
    | branch _ negated' => cases negated' <;> cases hkind
    | _ => cases hkind
  | branch tag negated cond tags body arms =>
    cases x' with
    | branch tag' negated' cond' tags' body' arms' =>
      obtain rfl : negated = negated' := by
        cases negated <;> cases negated' <;> first | rfl | cases hkind
      simp only [Stmt.node, Node.bare_mk_iff, Node.bareAll_cons_iff] at h
      obtain ⟨-, -, hcond, hbody, harms⟩ := h
      exact sameStmt_branch hcond (fun _ => sameLayout_stmts body body' (BlockTags.bare_iff hbody)) harms
        (fun _ => sameLayout_arms arms arms' harms) σ hE hE'
    | simple x' => cases negated <;> exact absurd hkind (x'.kind_ne nofun)
    | _ => cases negated <;> cases hkind
  | whileLoop tag cond tags body =>
    cases x' with
    | whileLoop tag' cond' tags' body' =>
      simp only [Stmt.node, Node.bare_mk_iff, Node.bareAll_cons_iff] at h
      obtain ⟨-, -, hcond, hbody, -⟩ := h
      exact sameStmt_while hcond (fun _ => sameLayout_stmts body body' (BlockTags.bare_iff hbody)) σ hE hE'
    | simple x' => exact absurd hkind (x'.kind_ne nofun)
    | branch _ negated' => cases negated' <;> cases hkind
    | _ => cases hkind
  | forLoop tag init cond step tags body =>
    cases x' with
    | forLoop tag' init' cond' step' tags' body' =>
      simp only [Stmt.node, Node.bare_mk_iff, Node.bareAll_cons_iff] at h
      obtain ⟨-, -, hinit, hcond, hstep, hbody, -⟩ := h
      exact sameStmt_for hinit hcond hstep
        (fun _ => sameLayout_stmts body body' (BlockTags.bare_iff hbody)) σ hE hE'
    | simple x' => exact absurd hkind (x'.kind_ne nofun)
    | branch _ negated' => cases negated' <;> cases hkind
    | _ => cases hkind

/-- Blocks that are equal up to ids and positions are laid out alike from the same spot on. -/
theorem sameLayout_stmts (b b' : Stmts) (h : Node.bareAll b.nodes = Node.bareAll b'.nodes) {σ : Spot}
    (hE : Along (Leg.Emitted E) b.legs σ) (hE' : Along (Leg.Emitted E') b'.legs σ) :
    SameLayout σ b.legs b'.legs b.span b'.span (b.lines E) (b'.lines E') := by
  cases b with
  | nil =>
    cases b' with
    | nil => exact ⟨rfl, rfl, fun _ _ => rfl⟩
    | cons => cases h
  | cons first rest =>
    cases b' with
    | nil => cases h
    | cons first' rest' =>
      obtain ⟨hfirst, hrest⟩ := Node.bareAll_cons_iff.mp h
      rw [Stmts.legs, along_append] at hE hE'
      -- the rest starts behind the first statement, in one spot for both
      have hx := sameLayout_stmt first first' hfirst hE.1 hE'.1
      have hbetween := hE.2
      rw [hx.after] at hbetween
      have hxs := sameLayout_stmts rest rest' hrest hbetween hE'.2
      refine ⟨?_, ?_, fun exit next => ?_⟩
      · rw [Stmts.legs, Stmts.legs, afterAll_append, afterAll_append, hx.after, hxs.after]
      · rw [Stmts.span, Stmts.span, hx.span, hxs.span]
      · rw [Stmts.lines, Stmts.lines, hx.lines, hx.span, hxs.lines]

/-- Further arms that are equal up to ids and positions are laid out alike from the same spot on. -/
theorem sameLayout_arms (a a' : Arms) (h : Node.bareAll a.nodes = Node.bareAll a'.nodes) {σ : Spot}
    (hE : Along (Leg.Emitted E) a.legs σ) (hE' : Along (Leg.Emitted E') a'.legs σ) :
    afterAll a.legs σ = afterAll a'.legs σ ∧ a.span = a'.span ∧
      ∀ exit finish next, a.lines E exit finish next = a'.lines E' exit finish next := by
  cases a with
  | none =>
    cases a' with
    | none => exact ⟨rfl, rfl, fun _ _ _ => rfl⟩
    | _ => cases h
  | last tag tags body =>
    cases a' with
    | none => cases h
    | last tag' tags' body' =>
      simp only [Arms.nodes, Node.bare_mk_iff, Node.bareAll_cons_iff] at h
      obtain ⟨⟨-, -, hbody, -⟩, -⟩ := h
      have hbodies := sameLayout_stmts body body' (BlockTags.bare_iff hbody) hE hE'
      exact ⟨hbodies.after, hbodies.span, fun exit _ next => hbodies.lines exit next⟩
    | elsif => cases Node.kind_eq_of_bare (Node.bareAll_cons_iff.mp h).1
  | elsif tag cond tags body rest =>
    cases a' with
    | none => cases h
    | last => cases Node.kind_eq_of_bare (Node.bareAll_cons_iff.mp h).1
    | elsif tag' cond' tags' body' rest' =>
      simp only [Arms.nodes, Node.bare_mk_iff, Node.bareAll_cons_iff] at h
      obtain ⟨⟨-, -, hcond, hbody, -⟩, hrest⟩ := h
      obtain ⟨hvalue, hE⟩ := hE
      obtain ⟨hvalue', hE'⟩ := hE'
      -- the second body starts at the spot behind the condition and the first body, which is the same
      -- in both
      have hspot := congrFun (Leg.after_value_eq (Cond.bare_iff hcond)) σ
      rw [hspot] at hE
      rw [along_append] at hE hE'
      have hbodies := sameLayout_stmts body body' (BlockTags.bare_iff hbody) hE.1 hE'.1
      have hbetween := hE.2
      rw [hbodies.after] at hbetween
      obtain ⟨hafter, hspan, hlines⟩ := sameLayout_arms rest rest' hrest hbetween hE'.2
      refine ⟨?_, ?_, fun exit finish next => ?_⟩
      · rw [Arms.legs, Arms.legs, afterAll_cons, afterAll_cons, hspot, afterAll_append, afterAll_append,
          hbodies.after, hafter]
      · rw [Arms.span, Arms.span, hbodies.span, hspan]
      · rw [Arms.lines, Arms.lines, armLines_eq hcond hvalue hvalue', hbodies.lines, hbodies.span, hlines]

end

end Layouts

end Shape

end ScriptPir

import ScriptPir.Proofs.Staging

/-!
# The legs of a walk

What a walk does to registers and declarations does not depend on branches and loops: it meets simple
statements and the expressions of conditions and returns one after the other, and each of them takes the
walk from one `Spot` to the next.

* `Stmt.legs` lists the legs of a statement in the order of the walk;
* `Along P legs σ` — a property holds for every leg, at the spot at which the walk comes to it;
* `Leg.Emitted` — an emission has for a leg, and for all expressions in it, what the leg is lowered
  to at a spot;
* `Threads E legs s s'` — the walk has passed some legs between two states.
-/

namespace ScriptPir

/-- An emission has the instructions and the value of an expression for a node. -/
def Emission.At (E : Emission) (id : Int) (r : Shape.Lowered Value) : Prop :=
  E.code id = r.code ∧ E.value id = r.result

namespace Shape

/-! ## What is emitted

Expressions contain others, and a leg is lowered to the code of all of them. To speak about the
operand of an inner instruction, an emission is compared with the lowering of every expression in the
leg. -/

section Emitted

variable (E : Emission)

mutual

/-- An emission has what an expression and all expressions in it are lowered to. -/
def Expr.Emitted : Expr → Supply → Prop
  | .constant id leaf, s => E.At id ((Expr.constant id leaf).lowered s)
  | .var id name, s => E.At id ((Expr.var id name).lowered s)
  | .global id name, s => E.At id ((Expr.global id name).lowered s)
  | .paren id opening inner closing, s =>
    E.At id ((Expr.paren id opening inner closing).lowered s) ∧ inner.Emitted s
  | .unary id sign operand, s =>
    E.At id ((Expr.unary id sign operand).lowered s) ∧ operand.Emitted s
  | .operation id left op right, s =>
    E.At id ((Expr.operation id left op right).lowered s) ∧ left.Emitted s ∧
      right.Emitted (left.lowered s).supply
  | .element parts index, s =>
    E.At parts.id ((Expr.element parts index).lowered s) ∧ index.Emitted s
  | .call parts args, s => E.At parts.id ((Expr.call parts args).lowered s) ∧ args.Emitted s

/-- An emission has what the values of arguments are lowered to. -/
def Args.Emitted : Args → Supply → Prop
  | .nil, _ => True
  | .cons _ _ value rest, s => value.Emitted s ∧ rest.Emitted (value.lowered s).supply

end

/-- An emission has what the expressions in a simple statement are lowered to. -/
def Simple.PartsEmitted : Simple → Spot → Prop
  | .assignment (.assign _ _ _ value), σ => value.Emitted E σ.reset.toSupply
  | .assignment (.store _ place index _ value), σ =>
    (Expr.element place index).Emitted E σ.reset.toSupply ∧
      value.Emitted E ((Expr.element place index).assigned σ).supply
  | .assignment (.arrayInit ..), _ => True
  | .assignment (.globalGet ..), _ => True
  | .globalSet _ _ _ value, σ => value.Emitted E σ.reset.toSupply
  | .require .., _ => True
  | .target .., _ => True
  | .call _ _ args, σ => args.Emitted E σ.reset.toSupply

end Emitted

/-! ## Legs

Branches and loops are taken apart here into the expressions that they test and the simple statements
in them. The step of a loop comes before its body, since that is the order of the walk. -/

/-- A leg of a walk: a simple statement, or an expression whose value a branch, a loop or a return
uses. -/
inductive Leg where
  | simple (x : Simple)
  | value (e : Expr)

namespace Leg

/-- The id of the node of a leg. -/
def id : Leg → Int
  | simple x => x.node.id
  | value e => e.id

/-- The instructions of a leg. -/
def code : Leg → Spot → List Instr
  | simple x, σ => x.code σ
  | value e, σ => (e.lowered σ.toSupply).code

/-- The spot behind a leg. -/
def after : Leg → Spot → Spot
  | simple x, σ => x.after σ
  | value e, σ => σ.spend (e.lowered σ.toSupply).supply

/-- A leg changes declared variables only. -/
def Defined : Leg → Spot → Prop
  | simple x, σ => x.Defined σ
  | value _, _ => True

/-- An emission has what a leg is lowered to. -/
def Emitted (E : Emission) : Leg → Spot → Prop
  | simple x, σ => E.code x.node.id = x.code σ ∧ x.PartsEmitted E σ
  | value e, σ => e.Emitted E σ.toSupply

end Leg

/-- The spot behind some legs. -/
def afterAll (legs : List Leg) (σ : Spot) : Spot := legs.foldl (fun σ x => x.after σ) σ

/-- The spot behind two parts is the one behind the second, from that behind the first. -/
theorem afterAll_append (xs ys : List Leg) (σ : Spot) :
    afterAll (xs ++ ys) σ = afterAll ys (afterAll xs σ) := List.foldl_append

/-- A property holds for all legs, each at the spot behind those before it. -/
def Along (P : Leg → Spot → Prop) : List Leg → Spot → Prop
  | [], _ => True
  | x :: xs, σ => P x σ ∧ Along P xs (x.after σ)

/-- A property holds along two parts if it holds along each, the second at the spot behind the first. -/
theorem along_append {P : Leg → Spot → Prop} {xs ys : List Leg} {σ : Spot} :
    Along P (xs ++ ys) σ ↔ Along P xs σ ∧ Along P ys (afterAll xs σ) := by
  induction xs generalizing σ with
  | nil => exact ⟨fun h => ⟨trivial, h⟩, fun h => h.2⟩
  | cons x xs ih =>
    show P x σ ∧ Along P (xs ++ ys) (x.after σ) ↔ (P x σ ∧ Along P xs (x.after σ)) ∧ _
    rw [ih, and_assoc]
    rfl

/-- The legs of a part of a loop's header. -/
def Clause.legs (c : Clause) : List Leg := c.assignments.map fun a => .simple (.assignment a)

mutual

/-- The legs of a statement, in the order of the walk. -/
def Stmt.legs : Stmt → List Leg
  | .simple x => [.simple x]
  | .ret _ none => []
  | .ret _ (some e) => [.value e]
  | .brk _ => []
  | .branch _ _ cond _ body arms => .value cond.expr :: (body.legs ++ arms.legs)
  | .whileLoop _ cond _ body => .value cond.expr :: body.legs
  | .forLoop _ init cond step _ body =>
    init.legs ++ .value cond.expr :: (step.legs ++ body.legs)

/-- The legs of statements. -/
def Stmts.legs : Stmts → List Leg
  | .nil => []
  | .cons first rest => first.legs ++ rest.legs

/-- The legs of the further arms of a branch. -/
def Arms.legs : Arms → List Leg
  | .none => []
  | .last _ _ body => body.legs
  | .elsif _ cond _ body rest => .value cond.expr :: (body.legs ++ rest.legs)

end

end Shape

open Shape

/-! ## Walks along legs

`Threads` is carried through the walk of a statement. Between two legs the walk may do anything that
spots and errors do not show (`SameSpot`), such as taking labels or moving fragments. -/

/-- The spots and the errors of two states are the same. -/
def SameSpot (s s' : Lowering) : Prop := s'.spot = s.spot ∧ s'.errors = s.errors

instance : Lax SameSpot where
  refl _ := ⟨rfl, rfl⟩
  trans h h' := ⟨h'.1.trans h.1, h'.2.trans h.2⟩
  buffers _ _ := ⟨rfl, rfl⟩
  fragments _ _ := ⟨rfl, rfl⟩
  values _ _ := ⟨rfl, rfl⟩
  labels _ _ _ := ⟨rfl, rfl⟩

/-- Between two states, a walk has passed some legs, of which an emission is a record. If there is no
error behind them, there was none before and all that they change is declared. -/
structure Threads (E : Emission) (legs : List Leg) (s s' : Lowering) : Prop where
  spot : s'.spot = afterAll legs s.spot
  emitted : Along (Leg.Emitted E) legs s.spot
  defined : s'.errors = #[] → s.errors = #[] ∧ Along Leg.Defined legs s.spot

namespace Threads

variable {E : Emission} {xs ys : List Leg} {s s₁ s₂ : Lowering}

theorem refl (E : Emission) (s : Lowering) : Threads E [] s s :=
  ⟨rfl, trivial, fun h => ⟨h, trivial⟩⟩

/-- The legs of two walks are passed one after the other. -/
theorem trans (h₁ : Threads E xs s s₁) (h₂ : Threads E ys s₁ s₂) : Threads E (xs ++ ys) s s₂ := by
  -- errors only grow: no error at the end means none in between
  refine ⟨?_, ?_, fun hclean => ?_⟩
  · rw [h₂.spot, h₁.spot, afterAll_append]
  · rw [along_append, ← h₁.spot]
    exact ⟨h₁.emitted, h₂.emitted⟩
  · obtain ⟨hclean₁, hdefined₂⟩ := h₂.defined hclean
    obtain ⟨hclean₀, hdefined₁⟩ := h₁.defined hclean₁
    rw [along_append, ← h₁.spot]
    exact ⟨hclean₀, hdefined₁, hdefined₂⟩

/-- Steps that leave the spot alone may follow. -/
theorem then_same (h : Threads E xs s s₁) (hsame : SameSpot s₁ s₂) : Threads E xs s s₂ := by
  refine ⟨hsame.1.trans h.spot, h.emitted, fun hclean => ?_⟩
  rw [hsame.2] at hclean
  exact h.defined hclean

/-- Steps that leave the spot alone may come first. -/
theorem of_same (hsame : SameSpot s s₁) (h : Threads E xs s₁ s₂) : Threads E xs s s₂ := by
  obtain ⟨hspot, herrors⟩ := hsame
  have hdefined := h.defined
  rw [hspot, herrors] at hdefined
  exact ⟨hspot ▸ h.spot, hspot ▸ h.emitted, hdefined⟩

/-- A node that only arranges what stands below it adds no legs. -/
theorem node {id : Int} {kind : Kind} {token : Token} {children : List Node} {s₃ : Lowering}
    (hkind : kind.isControl = true)
    (henter : (Lower.enter (.mk id kind token children)).run s = .ok ((), s₁))
    (h : Threads E xs s₁ s₂)
    (hexit : (Lower.exit (.mk id kind token children)).run s₂ = .ok ((), s₃)) :
    Threads E xs s s₃ := by
  have henters : Lower.Keeps SameSpot (Lower.enter (.mk id kind token children)) :=
    Lower.keeps_enter_control hkind
  have hexits : Lower.Keeps SameSpot (Lower.exit (.mk id kind token children)) :=
    Lower.keeps_exit_control hkind
  exact (of_same (henters.rel henter) h).then_same (hexits.rel hexit)

end Threads

section Expressions

variable {E : Emission}

/-- An emission that agrees with a visit has what the expression is lowered to. -/
theorem Emission.Agrees.at {e : Expr} {ns : List Node} {s s' : Lowering} {r : Lowered Value}
    (hE : E.Agrees (e.node :: ns) s) (hb : s.buffers.stack ≠ []) (hvisits : Visits e.node s s')
    (hplain : Plain r.code) (hcomputes : Computes s e.node.ids e.id r s') : E.At e.id r := by
  have hstored : s'.value e.node.id = some r.result := by
    rw [Expr.node_id]
    exact hcomputes.value
  have hcode := hE.code_eq hvisits hplain (hcomputes.passage.appended hb)
  have hvalue := hE.value_eq hvisits hstored
  rw [Expr.node_id] at hcode hvalue
  exact ⟨hcode, hvalue⟩

mutual

/-- An emission that agrees with the walk of an expression has what it is lowered to. -/
theorem emitted_expr (e : Expr) (hindexed : e.Indexed) {s : Lowering} (hready : Ready e.node.ids s)
    (hE : E.Agrees [e.node] s) : e.Emitted E s.supply := by
  obtain ⟨s', hvisits, hcomputes⟩ := visits_expr e hindexed hready
  have hat := hE.at hready.buffers hvisits (plain_lowered e _) hcomputes
  -- each part is visited from the state that the parts before it leave
  cases e with
  | constant | var | global => exact hat
  | paren id opening inner closing =>
    have hchildren := hE.inside rfl
    exact ⟨hat, emitted_expr inner hindexed (hready.children.mem (by simp))
      (hchildren.after (.leaf opening.toLeaf s)).first⟩
  | unary id sign operand =>
    have hchildren := hE.inside rfl
    exact ⟨hat, emitted_expr operand hindexed (hready.children.mem (by simp))
      (hchildren.after (.leaf sign.toLeaf s))⟩
  | operation id left op right =>
    have hleft : Ready left.node.ids s := hready.children.mem (by simp)
    have hright : Ready right.node.ids s := hready.children.mem (by simp)
    -- nothing happens when an operation is entered
    have henter : (Lower.enter (Expr.operation id left op right).node).run s = .ok ((), s) := by
      rw [Expr.node]
      obtain ⟨hkind, -⟩ | ⟨hkind | hkind, -⟩ := op.kind_cases <;> rw [hkind] <;> rfl
    have hchildren := hE.inside henter
    obtain ⟨s₁, hvisits₁, hcomputes₁⟩ := visits_expr left hindexed.1 hleft
    have hright₁ := hright.passage hcomputes₁.passage fun i _ => by rw [hcomputes₁.fragment]
    have hemitted := emitted_expr right hindexed.2 hright₁
      ((hchildren.after hvisits₁).after (.leaf op.toLeaf s₁))
    rw [hcomputes₁.supply] at hemitted
    exact ⟨hat, emitted_expr left hindexed.1 hleft hchildren.first, hemitted⟩
  | element parts index =>
    have harray : Ready (Expr.var parts.arrayId parts.array).node.ids s :=
      hready.children.mem List.mem_cons_self
    have hindex : Ready index.node.ids s := hready.children.mem (by simp)
    have hchildren := hE.inside rfl
    obtain ⟨s₁, hvisits₁, hcomputes₁⟩ :=
      visits_expr (.var parts.arrayId parts.array) trivial harray
    have hindex₁ := hindex.passage hcomputes₁.passage fun i _ => by rw [hcomputes₁.fragment]
    have hemitted := emitted_expr index hindexed.2 hindex₁
      ((hchildren.after hvisits₁).after (.leaf parts.opening.toLeaf s₁)).first
    rw [hcomputes₁.supply] at hemitted
    exact ⟨hat, hemitted⟩
  | call parts args =>
    have hargs : Ready (Node.mk parts.args.id .args parts.args.token args.nodes).ids s :=
      hready.children.mem (by simp)
    have hchildren := hE.inside rfl
    have hemitted := emitted_args args hindexed hargs.children.push
      ((hchildren.after (.leaf parts.callee.toLeaf s)).inside rfl)
    exact ⟨hat, hemitted⟩

/-- An emission that agrees with the visits of some arguments has what their values are lowered to. -/
theorem emitted_args (a : Args) (hindexed : a.Indexed) {s : Lowering}
    (hready : Ready (Node.idsAll a.nodes) s) (hE : E.Agrees a.nodes s) : a.Emitted E s.supply := by
  cases a with
  | nil => trivial
  | cons id name value rest =>
    have hargument : Ready (argNode id name value.token value.node).ids s :=
      hready.mem List.mem_cons_self
    have hrest : Ready (Node.idsAll rest.nodes) s :=
      hready.sublist (List.sublist_append_right ..)
    obtain ⟨s₁, hvisits₁, hcomputes₁⟩ := visits_expr value hindexed.1 hargument.value
    obtain ⟨s₂, hvisits₂, hcomputes₂⟩ := visits_argNode hargument hvisits₁ hcomputes₁
    have hrest₂ := hrest.passage hcomputes₂.passage fun i _ => by rw [hcomputes₂.fragment]
    -- the name of an argument is a leaf, which emits nothing
    have hvalue : E.Agrees [value.node] s := by
      cases name with
      | none => exact hE.first.inside rfl
      | some name => exact (hE.first.inside rfl).after (.leaf name.toLeaf s)
    have hemitted := emitted_args rest hindexed.2 hrest₂ (hE.after hvisits₂)
    rw [hcomputes₂.supply] at hemitted
    exact ⟨emitted_expr value hindexed.1 hargument.value hvalue, hemitted⟩

end

/-- The visit of an expression passes it as a leg. -/
theorem threads_expr {e : Expr} (hindexed : e.Indexed) {s s' : Lowering}
    (hready : Ready e.node.ids s) (hE : E.Agrees [e.node] s) (hvisits : Visits e.node s s')
    (hcomputes : Computes s e.node.ids e.id (e.lowered s.supply) s') :
    Threads E [.value e] s s' := by
  refine ⟨hcomputes.spot, ⟨emitted_expr e hindexed hready hE, trivial⟩, fun hclean => ?_⟩
  exact ⟨clean_of_walk hvisits.run hclean, trivial, trivial⟩

end Expressions

section Simples

variable {E : Emission} {s s' : Lowering}

/-- The expressions of a simple statement are walked with registers that start again. -/
theorem partsEmitted_simple (x : Simple) (hindexed : x.Indexed) (hready : Ready x.node.ids s)
    (hE : E.Agrees [x.node] s) : x.PartsEmitted E s.spot := by
  have hregisters := hready.reset s.registers.reset
  -- registers start again with the statement
  cases x with
  | assignment a =>
    cases a with
    | assign id name op value =>
      have hchildren := (hE.inside rfl).after (.leaf name.toLeaf _)
      exact emitted_expr value hindexed (hregisters.children.mem (by simp)).push
        (hchildren.after (.leaf op.toLeaf _))
    | arrayInit => trivial
    | store id target index op value =>
      have htarget : Ready (Expr.element target index).node.ids s := hready.children.mem (by simp)
      have hvalue : Ready value.node.ids s := hready.children.mem (by simp)
      have hchildren := hE.inside rfl
      obtain ⟨s₁, hvisits₁, hcomputes₁⟩ :=
        visits_expr (.element target index) hindexed.1 (htarget.reset s.registers.reset).push
      have hvalue₁ := (hvalue.reset s.registers.reset).push.passage hcomputes₁.passage
        fun i _ => by rw [hcomputes₁.fragment]
      have hemitted := emitted_expr value hindexed.2 hvalue₁
        ((hchildren.after hvisits₁).after (.leaf op.toLeaf s₁))
      rw [hcomputes₁.supply] at hemitted
      exact ⟨emitted_expr _ hindexed.1 (htarget.reset s.registers.reset).push hchildren.first,
        hemitted⟩
    | globalGet => trivial
  | globalSet id global op value =>
    have hchildren := (hE.inside rfl).after (.leaf global.toLeaf _)
    exact emitted_expr value hindexed (hregisters.children.mem (by simp)).push
      (hchildren.after (.leaf op.toLeaf _))
  | require => trivial
  | target => trivial
  | call id parts args =>
    have hcallee : Ready (Expr.call parts args).node.ids s := hready.children.mem (by simp)
    have henter : (Lower.enter (Simple.call id parts args).node).run s =
        .ok ((), s.calling parts.id) := rfl
    have hchildren := (hE.inside henter).inside rfl
    have hemitted := emitted_args args hindexed hcallee.calling.children.push
      ((hchildren.after (.leaf parts.callee.toLeaf _)).inside rfl)
    exact hemitted

/-- The visit of a simple statement passes it as a leg. -/
theorem threads_simple {x : Simple} (hindexed : x.Indexed) (hready : Ready x.node.ids s)
    (hE : E.Agrees [x.node] s) (hvisits : Visits x.node s s')
    (hperforms : Performs s x.node.ids (x.code s.spot) (x.after s.spot) s')
    (hdefined : s'.errors = #[] → x.Defined s.spot) : Threads E [.simple x] s s' := by
  have hcode := hE.code_eq hvisits (plain_simple x s.spot)
    (hperforms.writes.passage.appended hready.buffers)
  refine ⟨hperforms.spot, ⟨⟨hcode, partsEmitted_simple x hindexed hready hE⟩, trivial⟩, ?_⟩
  intro hclean
  exact ⟨clean_of_walk hvisits.run hclean, hdefined hclean, trivial⟩

end Simples

end ScriptPir

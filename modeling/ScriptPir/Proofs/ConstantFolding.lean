import ScriptPir.Proofs.Evaluation
import ScriptPir.Proofs.Valuation

/-!
# Folding is evaluation

Constants are folded step by step, wherever a walk exits an operation whose operands are constants. What
comes of this is said by a recursion on the tree alone:

* `Node.evaluated` — the value of an expression of literals, brackets, minus signs and arithmetic, unless
  a fold in it fails;
* `lowered_of_evaluated` and `evaluated_of_isStatic` — it is the constant that an expression is lowered
  to, if it is lowered to one;
* `walk_of_evaluated` — an expression with such a value is walked without any trace but the values in
  the table;
* `folding_exact` — the two together, for the expressions of a parsed tree.
-/

namespace ScriptPir

open Shape Lowered

/-- What an expression of constants evaluates to: literals have their values, and what stands above them
is folded. There is no value where a fold fails, nor for any other production. -/
def Node.evaluated : Node → Option Value
  | .mk _ .literal _ [leaf] => (literal leaf.token).toOption
  | .mk _ .paren _ [_, inner, _] => inner.evaluated
  | .mk _ .unary _ [sign, operand] =>
    if sign.text = "-" then operand.evaluated.bind fun v => (foldNeg v).toOption else none
  | .mk _ .binary _ [left, op, right] =>
    left.evaluated.bind fun l => right.evaluated.bind fun r => (fold op.text l r).toOption
  | _ => none

/-- A literal, a bracket, a minus sign or arithmetic, or a token below one of these. -/
def Node.Folds (n : Node) : Prop :=
  n.kind = .terminal ∨ n.kind = .literal ∨ n.kind = .paren ∨ n.kind = .binary ∨
    n.kind = .unary ∧ n.op?.map Node.text = some "-"

instance (n : Node) : Decidable n.Folds := inferInstanceAs (Decidable (_ ∨ _))

/-- A tree consists of constants and of what may fold them. -/
def Node.IsConstant (n : Node) : Prop := ∀ m ∈ n.nodesOnto [], m.Folds

instance (n : Node) : Decidable n.IsConstant :=
  inferInstanceAs (Decidable (∀ m ∈ n.nodesOnto [], m.Folds))

namespace Shape

variable {w : Value}

/-- Arithmetic is evaluated from its operands, and a comparison or a logical operation not at all. -/
theorem evaluated_operation {id : Int} {left right : Expr} {op : BinaryOp} :
    (Expr.operation id left op right).node.evaluated =
      if op.op.kind = .binary then
        left.node.evaluated.bind fun l => right.node.evaluated.bind fun r => (fold op.text l r).toOption
      else none := by
  rw [Expr.node]
  obtain ⟨hkind, -⟩ | ⟨hkind | hkind, -⟩ := op.kind_cases
  · rw [hkind, if_pos rfl, Node.evaluated]
    simp
  · rw [hkind, if_neg (by decide)]
    rfl
  · rw [hkind, if_neg (by decide)]
    rfl

theorem evaluated_unary {id : Int} {sign : Sign} {operand : Expr} :
    (Expr.unary id sign operand).node.evaluated =
      if sign.text = "-" then operand.node.evaluated.bind fun v => (foldNeg v).toOption else none := by
  rw [Expr.node, Node.evaluated, Leaf.text_node]

/-- A literal of a parsed tree has a value, as its token could be read. -/
theorem evaluated_constant {id : Int} {leaf : Constant} :
    (Expr.constant id leaf).node.evaluated = some leaf.value := by
  have hliteral : literal leaf.node.token = .ok leaf.value := leaf.literal_eq
  rw [Expr.node, Node.evaluated, hliteral]
  rfl

/-! ## The constant that an expression is lowered to

Both directions are inductions on the expression. One reads the constant off from the value; the
other one uses that a fold succeeds only for constants, so that a constant above has constants below. -/

/-- A result that is kept was no failure. -/
theorem toOption_eq_some {α ε : Type} {x : Except ε α} {a : α} (h : x.toOption = some a) : x = .ok a := by
  cases x with
  | ok b => rw [Option.some.inj h]
  | error e => cases h

theorem isStatic_of_fold {op : String} {l r w : Value} (h : fold op l r = .ok w) :
    l.isStatic = true ∧ r.isStatic = true := by
  cases l <;> cases r <;> first | exact ⟨rfl, rfl⟩ | cases h

/-- An expression that has a value is lowered to it, without instructions and registers. -/
theorem lowered_of_evaluated (e : Expr) {w : Value} (h : e.node.evaluated = some w) (s : Supply) :
    e.lowered s = done w s ∧ w.isStatic = true := by
  cases e with
  | constant id leaf =>
    rw [evaluated_constant] at h
    obtain rfl := Option.some.inj h
    exact ⟨rfl, leaf.isStatic⟩
  | paren id opening inner closing => exact lowered_of_evaluated inner h s
  | unary id sign operand =>
    rw [evaluated_unary] at h
    split at h
    · rename_i hsign
      obtain ⟨v, hv, hfold⟩ := Option.bind_eq_some_iff.mp h
      obtain ⟨hlowered, -⟩ := lowered_of_evaluated operand hv s
      -- the operand is lowered to a constant, so the sign is folded and nothing is emitted
      have hfold := toOption_eq_some hfold
      refine ⟨?_, isStatic_foldNeg hfold⟩
      show (operand.lowered s).andThen (signed sign.text) = done w s
      rw [hlowered]
      show signed sign.text v s = done w s
      rw [signed, if_pos hsign, negated, hfold]
    · cases h
  | operation id left op right =>
    rw [evaluated_operation] at h
    split at h
    · rename_i hkind
      obtain ⟨l, hl, h⟩ := Option.bind_eq_some_iff.mp h
      obtain ⟨r, hr, hfold⟩ := Option.bind_eq_some_iff.mp h
      have hfold := toOption_eq_some hfold
      -- an operator with a fold is none of the comparisons
      have htext : BoolOp.ofText? op.text = none := by
        obtain ⟨-, htext⟩ | ⟨hother | hother, -⟩ := op.kind_cases
        · exact htext
        · rw [hkind] at hother; cases hother
        · rw [hkind] at hother; cases hother
      refine ⟨?_, isStatic_fold hfold⟩
      show (left.lowered s).andThen (fun l s => (right.lowered s).andThen (operated op l)) = done w s
      rw [(lowered_of_evaluated left hl s).1]
      show (right.lowered s).andThen (operated op l) = done w s
      rw [(lowered_of_evaluated right hr s).1]
      show operated op l r s = done w s
      rw [operated_eq_computed htext, computed, hfold]
    · cases h
  | var | global | element | call => cases h

/-- An expression that is lowered to a constant has it as its value. -/
theorem evaluated_of_isStatic (e : Expr) (hindexed : e.Indexed) (s : Supply)
    (h : (e.lowered s).result.isStatic = true) : e.node.evaluated = some (e.lowered s).result := by
  cases e with
  | constant id leaf => exact evaluated_constant
  | paren id opening inner closing => exact evaluated_of_isStatic inner hindexed s h
  | unary id sign operand =>
    rw [evaluated_unary]
    change (signed sign.text (operand.lowered s).result (operand.lowered s).supply).result.isStatic =
      true at h
    show _ = some (signed sign.text (operand.lowered s).result (operand.lowered s).supply).result
    unfold signed at h ⊢
    split at h
    · rename_i hsign
      rw [if_pos hsign, if_pos hsign]
      unfold negated at h ⊢
      cases hfold : foldNeg (operand.lowered s).result with
      | error e =>
        -- the result is in a register then
        rw [hfold] at h
        cases h
      | ok w =>
        have hoperand : (operand.lowered s).result.isStatic = true := by
          cases hv : (operand.lowered s).result with
          | dynamic place => rw [hv] at hfold; cases hfold
          | int | float | str => rfl
        rw [evaluated_of_isStatic operand hindexed s hoperand, Option.bind_some, hfold]
        rfl
    · cases h
  | operation id left op right =>
    rw [evaluated_operation]
    change (operated op (left.lowered s).result (right.lowered (left.lowered s).supply).result
      (right.lowered (left.lowered s).supply).supply).result.isStatic = true at h
    show _ = some (operated op (left.lowered s).result (right.lowered (left.lowered s).supply).result
      (right.lowered (left.lowered s).supply).supply).result
    obtain ⟨hkind, htext⟩ | ⟨-, test, htest⟩ := op.kind_cases
    · rw [operated_eq_computed htext] at h ⊢
      unfold computed at h ⊢
      cases hfold : fold op.text (left.lowered s).result
          (right.lowered (left.lowered s).supply).result with
      | error e =>
        rw [hfold] at h
        cases h
      | ok w =>
        obtain ⟨hl, hr⟩ := isStatic_of_fold hfold
        rw [if_pos hkind, evaluated_of_isStatic left hindexed.1 s hl,
          evaluated_of_isStatic right hindexed.2 _ hr, Option.bind_some, Option.bind_some, hfold]
        rfl
    · rw [operated_eq_test htest] at h
      cases h
  | element parts index =>
    change (elementOf parts.array.text (index.lowered s).result).isStatic = true at h
    obtain ⟨i, hi⟩ | ⟨place, hplace⟩ := integral_lowered index hindexed.2 hindexed.1 s
    · rw [hi] at h
      cases h
    · rw [hplace] at h
      cases h
  | var | global | call => cases h

/-- A node that folds constants makes a constant tree of constant trees. -/
theorem isConstant_mk {id : Int} {kind : Kind} {token : Token} {children : List Node}
    (hfolds : (Node.mk id kind token children).Folds) (h : ∀ c ∈ children, c.IsConstant) :
    (Node.mk id kind token children).IsConstant := by
  intro m hm
  obtain rfl | ⟨c, hc, hm⟩ := Node.mem_nodes_mk.mp hm
  · exact hfolds
  · exact h c hc m hm

theorem Leaf.isConstant (l : Leaf) : l.node.IsConstant := isConstant_mk (.inl rfl) nofun

/-- An expression that has a value consists of constants and of what folds them. -/
theorem isConstant_of_evaluated (e : Expr) {w : Value} (h : e.node.evaluated = some w) :
    e.node.IsConstant := by
  cases e with
  | constant id leaf =>
    apply isConstant_mk (.inr (.inl rfl))
    simpa using leaf.isConstant
  | paren id opening inner closing =>
    apply isConstant_mk (.inr (.inr (.inl rfl)))
    simpa using ⟨opening.isConstant, isConstant_of_evaluated inner h, closing.isConstant⟩
  | unary id sign operand =>
    rw [evaluated_unary] at h
    split at h
    · rename_i hsign
      obtain ⟨v, hv, -⟩ := Option.bind_eq_some_iff.mp h
      have hop : (Expr.unary id sign operand).node.op? = some sign.node := rfl
      refine isConstant_mk (.inr (.inr (.inr (.inr ⟨rfl, ?_⟩)))) ?_
      -- the sign is the second child of its node, where the kind alone does not tell a minus from a
      -- negation
      · show Option.map Node.text (Expr.unary id sign operand).node.op? = some "-"
        rw [hop, Option.map_some, Leaf.text_node, hsign]
      · simpa using ⟨sign.isConstant, isConstant_of_evaluated operand hv⟩
    · cases h
  | operation id left op right =>
    rw [evaluated_operation] at h
    split at h
    · rename_i hkind
      obtain ⟨l, hl, h⟩ := Option.bind_eq_some_iff.mp h
      obtain ⟨r, hr, -⟩ := Option.bind_eq_some_iff.mp h
      apply isConstant_mk (.inr (.inr (.inr (.inl hkind))))
      simpa using ⟨isConstant_of_evaluated left hl, op.isConstant, isConstant_of_evaluated right hr⟩
    · cases h
  | var | global | element | call => cases h

/-! ## The walk of a constant

The walk of an expression that has a value touches nothing but the table of values: no instruction is
emitted, no register taken and no error recorded. This is stronger than that the constant comes out,
and it is what makes a fold invisible in the program. -/

section Walks

variable {s s' : Lowering} {n : Node} {id : Int} {w : Value}

/-- All that happened between two states is that a value was found out. -/
structure Traceless (s : Lowering) (id : Int) (w : Value) (s' : Lowering) : Prop where
  rest : s' = { s with values := s'.values }
  value : s'.value id = some w

/-- To enter a value in the table leaves everything else as it is. -/
theorem traceless_setValue (n : Node) (w : Value) (s : Lowering) :
    (Lower.setValue n w).Reaches s (Traceless s n.id w) := by
  refine ⟨_, rfl, rfl, ?_⟩
  rw [value_insert, Function.update_self]

/-- Walks that leave no trace leave none together, and the value is that of the last one. -/
theorem Traceless.trans {s₁ s₂ : Lowering} {id' : Int} {w' : Value} (h : Traceless s id' w' s₁)
    (h' : Traceless s₁ id w s₂) : Traceless s id w s₂ := by
  refine ⟨?_, h'.value⟩
  rw [h'.rest, h.rest]

/-- A node whose entry does nothing is walked by way of its children and its exit. -/
theorem reaches_walk {kind : Kind} {token : Token} {children : List Node} {P Q : Lowering → Prop}
    (henter : Lower.enter (.mk id kind token children) = pure ())
    (hchildren : (Lower.walkAll children).Reaches s P)
    (hexit : ∀ s', P s' → (Lower.exit (.mk id kind token children)).Reaches s' Q) :
    (Lower.walk (.mk id kind token children)).Reaches s Q := by
  rw [Lower.walk, henter, pure_bind]
  exact .then hchildren hexit

theorem reaches_walkAll_leaf {l : Leaf} {ns : List Node} {Q : Lowering → Prop}
    (h : (Lower.walkAll ns).Reaches s Q) : (Lower.walkAll (l.node :: ns)).Reaches s Q := by
  rw [Lower.walkAll]
  exact .bind (Visits.leaf l s).run h

theorem reaches_walkAll_nil {Q : Lowering → Prop} (h : Q s) : (Lower.walkAll []).Reaches s Q := by
  rw [Lower.walkAll]
  exact ⟨s, rfl, h⟩

/-- An expression that has a value is walked without a trace but in the table of values. -/
theorem walk_of_evaluated (e : Expr) (hnodup : e.node.ids.Nodup) {w : Value}
    (h : e.node.evaluated = some w) (s : Lowering) :
    (Lower.walk e.node).Reaches s (Traceless s e.id w) := by
  cases e with
  | constant id leaf =>
    rw [evaluated_constant] at h
    obtain rfl := Option.some.inj h
    refine reaches_walk rfl (reaches_walkAll_leaf (reaches_walkAll_nil rfl)) ?_
    rintro s' rfl
    refine .bind (Lower.run_child (i := 0) rfl leaf.node_ne_absent s) ?_
    have hliteral : literal leaf.node.token = .ok leaf.value := leaf.literal_eq
    rw [hliteral]
    exact traceless_setValue (Expr.constant id leaf).node leaf.value s
  | paren id opening inner closing =>
    have hinner : inner.node.ids.Nodup := hnodup.sublist
      ((Node.ids_sublist_idsAll (by simp)).trans (List.sublist_cons_self ..))
    have hwalk := walk_of_evaluated inner hinner h s
    refine reaches_walk rfl (reaches_walkAll_leaf (.then hwalk fun s₁ h₁ =>
      reaches_walkAll_leaf (reaches_walkAll_nil h₁))) fun s₁ h₁ => ?_
    refine .bind (Lower.run_child (i := 1) rfl inner.node_ne_absent s₁) ?_
    refine .bind (Lower.run_valueOf (by rw [Expr.node_id, h₁.value])) ?_
    exact (traceless_setValue (Expr.paren id opening inner closing).node w s₁).mono fun _ => h₁.trans
  | unary id sign operand =>
    rw [evaluated_unary] at h
    split at h
    · rename_i hsign
      obtain ⟨v, hv, hfold⟩ := Option.bind_eq_some_iff.mp h
      have hfold := toOption_eq_some hfold
      have hoperand : operand.node.ids.Nodup := hnodup.sublist
        ((Node.ids_sublist_idsAll (by simp)).trans (List.sublist_cons_self ..))
      have hwalk := walk_of_evaluated operand hoperand hv s
      refine reaches_walk rfl (reaches_walkAll_leaf (.then hwalk fun s₁ h₁ =>
        reaches_walkAll_nil h₁)) fun s₁ h₁ => ?_
      refine .bind (Lower.run_operator (i := 0) rfl rfl sign.node_ne_absent s₁) ?_
      refine .bind (Lower.run_child (i := 1) rfl operand.node_ne_absent s₁) ?_
      refine .bind (Lower.run_valueOf (by rw [Expr.node_id, h₁.value])) ?_
      rw [Leaf.text_node, hsign]
      show (Lower.exitNegation (Expr.unary id sign operand).node v).Reaches s₁ _
      unfold Lower.exitNegation
      rw [hfold, if_pos (lowered_of_evaluated operand hv ⟨0, 0⟩).2]
      exact (traceless_setValue (Expr.unary id sign operand).node w s₁).mono fun _ => h₁.trans
    · cases h
  | operation id left op right =>
    rw [evaluated_operation] at h
    split at h
    · rename_i hkind
      obtain ⟨l, hl, h⟩ := Option.bind_eq_some_iff.mp h
      obtain ⟨r, hr, hfold⟩ := Option.bind_eq_some_iff.mp h
      have hfold := toOption_eq_some hfold
      have hbelow := (List.nodup_cons.mp hnodup).2
      have hright : right.node.ids.Nodup := hbelow.sublist (Node.ids_sublist_idsAll (by simp))
      rw [Node.idsAll, List.nodup_append] at hbelow
      obtain ⟨s₁, hrun₁, h₁⟩ := walk_of_evaluated left hbelow.1 hl s
      obtain ⟨s₂, hrun₂, h₂⟩ := walk_of_evaluated right hright hr s₁
      -- the right operand leaves the value of the left one alone
      have hvalue : s₂.value left.node.id = some l := by
        rw [value_of_walk hrun₂, Expr.node_id, h₁.value]
        intro hmem
        refine hbelow.2.2 _ (Expr.node_id left ▸ left.id_mem_ids) _ ?_ rfl
        exact (Node.ids_sublist_idsAll (by simp)).subset hmem
      have hchildren : (Lower.walkAll [left.node, op.node, right.node]).Reaches s (· = s₂) := by
        rw [Lower.walkAll]
        refine .bind hrun₁ (reaches_walkAll_leaf ?_)
        rw [Lower.walkAll]
        exact .bind hrun₂ (reaches_walkAll_nil rfl)
      rw [Expr.node, hkind]
      refine reaches_walk rfl hchildren ?_
      rintro s' rfl
      refine .bind (Lower.run_operator (i := 1) rfl rfl op.node_ne_absent s') ?_
      refine .bind (Lower.run_child (i := 0) rfl left.node_ne_absent s') ?_
      refine .bind (Lower.run_valueOf hvalue) ?_
      refine .bind (Lower.run_child (i := 2) rfl right.node_ne_absent s') ?_
      refine .bind (Lower.run_valueOf (by rw [Expr.node_id, h₂.value])) ?_
      obtain ⟨hstaticLeft, hstaticRight⟩ := isStatic_of_fold hfold
      rw [Leaf.text_node, hstaticLeft, hstaticRight, Bool.and_self, if_pos rfl, hfold]
      exact (traceless_setValue (.mk id .binary left.token [left.node, op.node, right.node]) w s').mono
        fun _ => (h₁.trans h₂).trans
    · cases h
  | var | global | element | call => cases h

end Walks

end Shape

/-- In a parsed tree, the value of an expression is a constant exactly if the expression consists of
literals, brackets, minus signs and arithmetic and its evaluation by recursion does not fail. Then that
evaluation is the value, and the walk of the expression changes nothing but the table of values: no
instruction is written, no register or label is taken, no call noted and no error reported. -/
theorem folding_exact {src : Source} {root n : Node} (hparse : parse src = .ok root)
    (hn : n ∈ root.nodesOnto []) (hexpr : n.kind.isExpr = true) (label stdlib : String) :
    ∃ final t t', lower root label stdlib = .ok final ∧
      Entered [root] (.started label stdlib) n t ∧ (Lower.walk n).run t = .ok ((), t') ∧
      ((∃ v, final.value n.id = some v ∧ v.isStatic = true) ↔
        n.IsConstant ∧ n.evaluated.isSome = true) ∧
      ∀ w, n.IsConstant → n.evaluated = some w →
        final.value n.id = some w ∧ t' = { t with values := t'.values } := by
  obtain ⟨script, E, s, rfl, -, hnodup, -, hlowers⟩ := exists_lowers hparse label stdlib
  obtain ⟨_, hscript, -, -, hnonneg⟩ := exists_script_of_parse hparse
  rw [← hscript] at hnonneg
  have hwalk := hlowers.visits.run
  obtain ⟨t, hentered⟩ := exists_entered hwalk hn
  have hids := hnodup
  rw [← idsAll_singleton] at hids
  obtain ⟨t', hrun, hvalue⟩ := hentered.exists_walk hids (walkAll_singleton hwalk)
  refine ⟨_, t, t', lower_eq_of_walk hnodup hwalk, hentered, hrun, ?_⟩
  cases hlowers.visits.fits n t hentered with
  | @expr e t hindexed hready =>
    obtain ⟨_, hvisits, hcomputes⟩ := visits_expr e hindexed hready
    obtain rfl := (Prod.mk.inj (Except.ok.inj (hvisits.run.symm.trans hrun))).2
    have hfinal : s.value e.node.id = some (e.lowered t.supply).result := by
      rw [hvalue _ (e.node.id_mem_ids e.node_ne_absent), Expr.node_id, hcomputes.value]
    refine ⟨⟨?_, ?_⟩, fun w _ hw => ?_⟩
    · rintro ⟨v, hv, hstatic⟩
      obtain rfl := Option.some.inj (hfinal.symm.trans hv)
      have hevaluated := evaluated_of_isStatic e hindexed t.supply hstatic
      exact ⟨isConstant_of_evaluated e hevaluated, by rw [hevaluated]; rfl⟩
    · rintro ⟨-, hsome⟩
      obtain ⟨w, hw⟩ := Option.isSome_iff_exists.mp hsome
      obtain ⟨hlowered, hstatic⟩ := lowered_of_evaluated e hw t.supply
      rw [hlowered] at hfinal
      exact ⟨w, hfinal, hstatic⟩
    · rw [(lowered_of_evaluated e hw t.supply).1] at hfinal
      obtain ⟨_, hwalked, htraceless⟩ := walk_of_evaluated e hready.nodup hw t
      obtain rfl := (Prod.mk.inj (Except.ok.inj (hwalked.symm.trans hrun))).2
      exact ⟨hfinal, htraceless.rest⟩
  | @unused parts args t hcall =>
    -- a call whose result is not used has neither a value nor an evaluation
    have hdiscards := stmtCall_of_entered hnodup hnonneg rfl hentered hn hcall
    have hnone : s.value (Expr.call parts args).node.id = none := by
      refine value_eq_none_of_not_valued hlowers.visits hnodup (fun _ => rfl) hn ?_
      rintro ⟨-, hvalued | ⟨-, hused⟩⟩
      · cases hvalued
      · exact hused hdiscards
    refine ⟨⟨?_, fun h => by cases h.2⟩, fun w _ hw => by cases hw⟩
    rintro ⟨v, hv, -⟩
    cases hnone.symm.trans hv
  | @simple x =>
    rw [x.kind_isExpr] at hexpr
    cases hexpr
  | other hother =>
    rw [hother] at hexpr
    cases hexpr

/-- Constants and operands of the run time side by side, with a fold that fails. -/
def folded : Source := .ofString "x = (-2 - 2 + y) * f(7 / (3 - 3), -(1.5 * 2))
"

/-- Both sides occur in one program: `-2 - 2` has a value, and `7 / (3 - 3)` consists of constants and
has none. -/
theorem folding_exact_folded :
    ∃ root n, parse folded = .ok root ∧ n ∈ root.nodesOnto [] ∧ n.kind.isExpr = true ∧
      n.IsConstant ∧ n.evaluated.isSome = true ∧
      ∃ final t t', lower root "folded" defaultStdlib = .ok final ∧
        Entered [root] (.started "folded" defaultStdlib) n t ∧ (Lower.walk n).run t = .ok ((), t') ∧
        ((∃ v, final.value n.id = some v ∧ v.isStatic = true) ↔
          n.IsConstant ∧ n.evaluated.isSome = true) ∧
        ∀ w, n.IsConstant → n.evaluated = some w →
          final.value n.id = some w ∧ t' = { t with values := t'.values } := by
  have hshape : ((parse folded).toOption.any fun root => (root.nodesOnto []).any fun n =>
      decide (n.kind = .binary) && decide n.IsConstant && n.evaluated.isSome) = true := by
    decide +kernel
  cases hparse : parse folded with
  | error e => rw [hparse] at hshape; cases hshape
  | ok root =>
    rw [hparse] at hshape
    obtain ⟨n, hn, hcheck⟩ := List.any_eq_true.mp hshape
    simp only [Bool.and_eq_true, decide_eq_true_eq] at hcheck
    obtain ⟨⟨hkind, hconstant⟩, hsome⟩ := hcheck
    have hexpr : n.kind.isExpr = true := by rw [hkind]; rfl
    exact ⟨root, n, rfl, hn, hexpr, hconstant, hsome,
      folding_exact hparse hn hexpr "folded" defaultStdlib⟩

end ScriptPir

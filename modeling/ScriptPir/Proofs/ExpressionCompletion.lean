import ScriptPir.Proofs.Completion
import ScriptPir.Proofs.ExpressionLowering

/-!
# Completing an expression

The last token of the lines is a line feed. So an expression can only come to their end where it skips line
feeds: behind a bracket, an operator or a comma. There any expression may follow, and then the brackets are
closed. One thing may still go wrong: an index with a constant in it that is no integer is rejected once it
is closed (`closes_integral`).

Main statement: `Parser.repairs_expr`.

* `Closes` — the completion of one production: if a run came to the end of the lines, it can be
  completed by some words, and then the run on the longer text succeeds;
* `closes_integral` — the check of an index, for which the constants in the tree are followed;
* `repairs_expr` — all expressions, by induction on the fuel.
-/

namespace ScriptPir

/-! ## Constants in an index

The parser rejects an index with a float or a string in it, but only behind the closing bracket. The
constant that it reports is one of the tokens that were read, since it looks neither into calls nor
into further indices. -/

namespace Shape

theorem Leaf.nonIntegral?_node (leaf : Leaf) : leaf.node.nonIntegral? = none := rfl

/-- A constant of an expression that is no integer is a float or a string among its tokens. -/
theorem mem_of_nonIntegral? (e : Expr) {sig : List Token} (hspells : e.Spells sig) {bad : Node}
    (h : e.node.nonIntegral? = some bad) : bad.token ∈ sig ∧ ¬bad.token.Plain := by
  cases e with
  | constant id leaf =>
    rw [spells_constant] at hspells
    subst hspells
    have hkind : leaf.token.kind = .float ∨ leaf.token.kind = .string := by
      by_contra hkind
      simp [Expr.node, Node.nonIntegral?, Leaf.node, Node.token, hkind] at h
    have hbad : bad = (Expr.constant id leaf).node := by
      simpa [Expr.node, Node.nonIntegral?, Leaf.node, Node.token, hkind] using h.symm
    rw [hbad, Expr.node_token]
    exact ⟨List.mem_singleton_self _, fun hplain => hkind.elim hplain.1 hplain.2⟩
  | var id name =>
    obtain ⟨n, hn, hbad⟩ := nonIntegralAny?_eq_some h
    rw [List.mem_singleton.mp hn, Leaf.nonIntegral?_node] at hbad
    cases hbad
  | global id name =>
    obtain ⟨n, hn, hbad⟩ := nonIntegralAny?_eq_some h
    rw [List.mem_singleton.mp hn, Leaf.nonIntegral?_node] at hbad
    cases hbad
  | paren id opening inner closing =>
    obtain ⟨inside, rfl, hinside⟩ := spells_paren.mp hspells
    obtain ⟨n, hn, hbad⟩ := nonIntegralAny?_eq_some h
    simp only [List.mem_cons, List.not_mem_nil, or_false] at hn
    rcases hn with rfl | rfl | rfl
    · cases hbad
    · obtain ⟨hmem, hplain⟩ := mem_of_nonIntegral? inner hinside hbad
      exact ⟨List.mem_cons_of_mem _ (List.mem_append_left _ hmem), hplain⟩
    · cases hbad
  | unary id sign operand =>
    obtain ⟨inside, rfl, hinside⟩ := spells_unary.mp hspells
    obtain ⟨n, hn, hbad⟩ := nonIntegralAny?_eq_some h
    simp only [List.mem_cons, List.not_mem_nil, or_false] at hn
    rcases hn with rfl | rfl
    · cases hbad
    · obtain ⟨hmem, hplain⟩ := mem_of_nonIntegral? operand hinside hbad
      exact ⟨List.mem_cons_of_mem _ hmem, hplain⟩
  | operation id left op right =>
    obtain ⟨before, behind, rfl, hleft, hright⟩ := spells_operation.mp hspells
    -- an operator has none of the kinds that are looked at themselves
    have hkind : op.op.kind ≠ .literal ∧ op.op.kind ≠ .index ∧ op.op.kind ≠ .call := by
      obtain ⟨hkind, -⟩ | ⟨hkind | hkind, -⟩ := op.kind_cases <;> rw [hkind] <;> decide
    rw [Expr.node, nonIntegral?_mk hkind.1 hkind.2.1 hkind.2.2] at h
    obtain ⟨n, hn, hbad⟩ := nonIntegralAny?_eq_some h
    simp only [List.mem_cons, List.not_mem_nil, or_false] at hn
    rcases hn with rfl | rfl | rfl
    · obtain ⟨hmem, hplain⟩ := mem_of_nonIntegral? left hleft hbad
      exact ⟨List.mem_append_left _ hmem, hplain⟩
    · cases hbad
    · obtain ⟨hmem, hplain⟩ := mem_of_nonIntegral? right hright hbad
      exact ⟨List.mem_append_right _ (List.mem_cons_of_mem _ hmem), hplain⟩
  | element parts index => cases h
  | call parts args => cases h

end Shape

namespace Parser

variable {α β : Type} {x : FullLines} {S : Token → Prop}

/-! ## Expressions from the start

The word for a constant is a whole expression, and one that may stand in an index. So wherever an
expression is wanted, one word is enough, whatever limit the operators around it set. -/

/-- What may follow a completed expression. -/
def Bound (t : Token) : Prop := t.kind = .semi ∨ t.kind = .closing ∨ t.kind = .eof

/-- An expression that can stand in an index. -/
def IntegralNode (e : Node) : Prop := e.nonIntegral? = none

/-- The word for a constant is an integer. -/
theorem literal_of_one {t : Token} (h : Word.one.Says t) : literal t = .ok (.int 1) := by
  unfold literal
  rw [h.1, h.2]
  rfl

/-- A constant is a primary. -/
theorem finishes_primary (expr : Parser Node) (fuel : Nat) :
    Finishes S [.one] (primary expr fuel) IntegralNode := by
  refine .next_bind fun t ht => ?_
  have hkind : t.kind = .int := ht.1
  rw [hkind]
  dsimp only
  rw [literal_of_one ht]
  refine .bind_nil .made ?_
  rintro _ ⟨i, rfl⟩
  refine Finishes.made.mono (fun _ => id) ?_
  rintro _ ⟨j, rfl⟩
  simp [IntegralNode, Node.nonIntegral?, Node.token, hkind]

/-- A constant needs no sign. -/
theorem finishes_unary {operand : Parser Node} (h : Finishes S [.one] operand IntegralNode) (fuel : Nat) :
    Finishes S [.one] (unary operand (fuel + 1)) IntegralNode := by
  refine .peek_bind fun t ht => ?_
  rw [if_neg (by simp [isSign, Token.isOp, Token.isKeyword, ht.1, Word.kind])]
  exact h

theorem Bound.ofToken? {t : Token} (h : Bound t) : Operator.ofToken? t = none := by
  rcases h with h | h | h <;> exact ofToken?_of_kind (by rw [h]; decide) (by rw [h]; decide)

/-- The climb stops at once in front of what may follow an expression. -/
theorem finishes_climb (right : Nat → Parser Node) (limit fuel : Nat) {left : Node} {Q : Node → Prop}
    (h : Q left) : Finishes Bound [] (climb right limit (fuel + 1) left) Q := by
  refine .peek_bind_nil fun t ht => ?_
  rw [ht.ofToken?]
  exact .pure h

theorem finishes_binary (fuel limit : Nat) :
    Finishes Bound [.one] (binary (fuel + 1) limit) IntegralNode :=
  (finishes_unary (finishes_primary _ _) fuel).bind (fun _ h => finishes_climb _ limit fuel h) fun _ => id

/-! ## Expressions

Each production is completed on the assumption that the expressions inside are (`Repairs`). Where a
production ends with a bracket, that bracket is the last of its words; where it skips line feeds in
front of an expression, the expression is completed from its start. -/

/-- A constant of an expression that is no integer is one of the tokens. -/
def FindsConstants (expr : Parser Node) : Prop :=
  ∀ c e c', c.Closed → expr.run c = .ok (e, c') → ∀ bad, e.nonIntegral? = some bad →
    bad.token ∈ c.rest ∧ ¬bad.token.Plain

/-- A parser for expressions, and one with more fuel, with which it can be completed. -/
structure Repairs (x : FullLines) (N : Nat) (expr expr' : Parser Node) : Prop where
  needs : ∀ ending, Needs ending expr
  tracks : ∀ y, Tracks y Any False N 1 expr expr'
  closes : Closes x Any Bound N expr expr'
  finishes : Finishes Bound [.one] expr' IntegralNode
  constants : FindsConstants expr
  constants' : FindsConstants expr'

/-- What is repaired for many tokens is repaired for fewer. -/
theorem Repairs.weaken {N n : Nat} {expr expr' : Parser Node} (h : Repairs x N expr expr') (hn : n ≤ N) :
    Repairs x n expr expr' :=
  ⟨h.needs, fun y => (h.tracks y).weaken hn, h.closes.weaken hn, h.finishes, h.constants,
    h.constants'⟩

theorem Bound.of_closing {w : Word} (hw : w.kind = .closing) {t : Token} (ht : w.Says t) : Bound t :=
  .inr (.inl (ht.1.trans hw))

theorem isNewline_of_kind {t : Token} (h : t.kind ≠ .semi) : t.isNewline = false := by
  simp [Token.isNewline, h]

section Expressions

variable {P : List Token → Prop} {N : Nat} {expr expr' : Parser Node} (h : Repairs x N expr expr')

include h

/-- A value, and then nothing but nodes. -/
theorem closes_value {f : Node → Parser Node} (hf : ∀ a, Closes x Any Bound N (f a) (f a))
    (hend : ∀ a, Takes Bound [] (f a)) : Closes x P Bound N (expr >>= f) (expr' >>= f) :=
  .bind_nil (fun y => (h.tracks y).any) h.closes.any hf hend

/-- An argument is completed as its value; its name is complete if it is one. -/
theorem closes_argument {t : Token} {named : Bool} :
    Closes x (fun l => l[0]? = some t ∧ (named = true → t.isNewline = false ∧
      ∃ u, l[1]? = some u ∧ u.isNewline = false)) Bound N (argument expr t named) (argument expr' t named) := by
  refine .ite (fun hnamed => ?_) fun _ => closes_value h (fun _ => .node) fun _ => .node
  refine (Closes.skip_bind (fun l => ∃ u, l[0]? = some u ∧ u.isNewline = false) (fun l hl => ?_)
    (.weaken (.skip_bind Any (fun l hl => ?_) ?_) (Nat.le_succ N))).weaken (Nat.le_succ N)
  · obtain ⟨hline, u, hu, hu'⟩ := hl.2 hnamed
    exact ⟨t, hl.1, hline, u, by rw [List.getElem?_tail]; exact hu, hu'⟩
  · obtain ⟨u, hu, hu'⟩ := hl
    exact ⟨u, hu, hu', trivial⟩
  · exact .term_bind fun _ => closes_value h (fun _ => .node) fun _ => .node

omit h in
/-- Whether an argument has a name is known before its end. -/
theorem closes_isNamed_bind {f f' : Bool → Parser β} {t : Token}
    (hf : ∀ named, Closes x (fun l => l[0]? = some t ∧ (named = true → t.isNewline = false ∧
      ∃ u, l[1]? = some u ∧ u.isNewline = false)) S N (f named) (f' named)) :
    Closes x (fun l => P l ∧ l[0]? = some t) S N (isNamed t >>= f) (isNamed t >>= f') := by
  unfold isNamed
  by_cases hname : t.isName = true
  · have hline : t.isNewline = false := isNewline_of_kind (by rw [(Shape.isName_kind hname).1]; decide)
    rw [if_pos hname, map_eq_pure_bind, bind_assoc, bind_assoc]
    refine .peek_bind (fun c hc hl => hc.length_lt hl.2 hline) fun u _ => ?_
    rw [pure_bind, pure_bind]
    refine (hf (u.isOp ":")).mono (fun l hl => ⟨hl.1.2, fun hcolon => ⟨hline, u, hl.2, ?_⟩⟩) (fun _ => id)
      (Nat.le_refl _)
    refine isNewline_of_kind fun hkind => ?_
    simp [Token.isOp, hkind] at hcolon
  · rw [if_neg hname, pure_bind, pure_bind]
    exact (hf false).mono (fun l hl => ⟨hl.2, fun hfalse => by cases hfalse⟩) (fun _ => id) (Nat.le_refl _)

omit h in
/-- No further argument follows. -/
theorem takes_noComma (a : α) (q : Parser α) :
    Takes Bound [] (do if (← Parser.peek).kind ≠ .comma then return a else q) := by
  refine .peek_bind_nil fun after hafter => ?_
  rw [if_pos (by rcases hafter with h | h | h <;> rw [h] <;> decide)]
  exact .pure trivial

/-- One constant is a list of arguments. -/
theorem finishes_arguments (bracketed : Bool) (fuel : Nat) :
    Takes Bound [.one] (arguments expr' bracketed (fuel + 1)) := by
  rw [arguments_succ]
  refine .peek_bind fun t ht => ?_
  have hnamed : isNamed t = pure false := by
    rw [isNamed, if_neg]
    simp [Token.isName, ht.1, Word.kind]
  rw [hnamed, pure_bind]
  have hvalue : Takes Bound [.one] (argument expr' t false) :=
    h.finishes.bind (fun _ _ => .node) fun _ => id
  exact hvalue.bind (fun arg _ => takes_noComma [arg] _) fun _ => id

/-- The arguments of a call end in one of them, or behind a comma. -/
theorem closes_arguments (bracketed : Bool) {fuel fuel' : Nat} (hlt : fuel < fuel') (hN : N ≤ fuel) :
    Closes x P Bound N (arguments expr bracketed fuel) (arguments expr' bracketed fuel') := by
  -- on the fuel: an argument and its comma are taken, or the list is completed by a last argument
  induction fuel generalizing fuel' N P with
  | zero =>
    obtain rfl := Nat.le_zero.mp hN
    exact .none
  | succ fuel ih =>
    obtain ⟨fuel', rfl⟩ : ∃ m, fuel' = m + 2 := ⟨fuel' - 2, by omega⟩
    cases N with
    | zero => exact .none
    | succ n =>
      have hrest : ∀ (P : List Token → Prop) (arg : Node), Closes x P Bound n
          (do return arg :: (← arguments expr bracketed fuel))
          (do return arg :: (← arguments expr' bracketed (fuel' + 1))) := by
        intro P arg
        have htracks : ∀ y, Tracks y Any False n 1 (arguments expr bracketed fuel)
            (arguments expr' bracketed (fuel' + 1)) := fun y =>
          tracks_arguments (h.needs _) ((h.tracks y).weaken (Nat.le_succ n)) bracketed (by omega) (by omega)
        exact .bind_nil (fun y => (htracks y).any) (ih (h.weaken (Nat.le_succ n)) (by omega) (by omega))
          (fun _ => .pure) fun _ => .pure trivial
      have htaken : ∀ arg : Node, Takes Bound [.one]
          (do return arg :: (← arguments expr' bracketed (fuel' + 1))) :=
        fun arg => (finishes_arguments h bracketed fuel').bind (fun _ _ => .pure trivial) fun _ => id
      rw [arguments_succ, arguments_succ]
      refine .peek_bind_zero fun t _ => closes_isNamed_bind fun named => ?_
      refine .bind_taken_nil (fun y => (tracks_argument (h.needs _) (h.tracks y) t named).any)
        (closes_argument h) (fun arg => ?_) fun arg => takes_noComma [arg] _
      refine .peek_bind_zero fun after _ => .ite (fun _ => .pure) fun hcomma => ?_
      unfold separator
      rw [bind_assoc, bind_assoc]
      refine (Closes.skip_bind Any (fun l hl => ⟨after, hl.2, ?_, trivial⟩) ?_).weaken (Nat.le_succ n)
      · exact isNewline_of_kind (by rw [not_not.mp hcomma]; decide)
      · cases bracketed with
        | false => exact hrest _ arg
        | true => exact .skipNewlines_bind (by decide) (hrest _ arg) (htaken arg)

/-- The arguments under one node are completed like the list of them. -/
theorem closes_args {fuel fuel' : Nat} (hlt : fuel < fuel') (hN : N ≤ fuel) (t : Token)
    (bracketed : Bool) : Closes x P Bound N (args expr fuel t bracketed) (args expr' fuel' t bracketed) := by
  have htracks : ∀ y, Tracks y P False N 1 (arguments expr bracketed fuel)
      (arguments expr' bracketed fuel') :=
    fun y => (tracks_arguments (h.needs _) (h.tracks y) bracketed (Nat.le_of_lt hlt) hN).any
  exact .fresh_bind fun id => .bind_nil htracks (closes_arguments h bracketed hlt hN) (fun _ => .pure)
    fun _ => .pure trivial

omit h in
/-- A bracket that is wanted is the word for it. -/
theorem takes_closing {text : String} {w : Word} (hkind : w.kind = .closing) (htext : w.text = text)
    {f : Token → Parser β} (hend : ∀ t, Takes S [] (f t)) :
    Takes S [w] (do skipNewlines; f (← Parser.expect .closing text)) := by
  refine .skipNewlines_bind (fun h => by rw [h] at hkind; cases hkind) ?_
  exact (Finishes.expect hkind htext).bind (fun t _ => hend t) fun _ _ => trivial

omit h in
/-- A closing bracket behind line feeds. -/
theorem closes_closing {text : String} {w : Word} (hkind : w.kind = .closing) (htext : w.text = text)
    (hline : text ≠ "\n") {f f' : Token → Parser β} (hf : ∀ t, Closes x Any S N (f t) (f' t))
    (hend : ∀ t, Takes S [] (f' t)) :
    Closes x P S N (do skipNewlines; f (← Parser.expect .closing text))
      (do skipNewlines; f' (← Parser.expect .closing text)) := by
  have hw : w ≠ .newline := by
    rintro rfl
    cases hkind
  have htaken : Takes S [w] (do f' (← Parser.expect .closing text)) :=
    (Finishes.expect hkind htext).bind (fun t _ => hend t) fun _ _ => trivial
  exact .skipNewlines_bind hw (.andThen (fun _ => (Tracks.expect (by decide)).weak) (.expect hline) hf) htaken

/-- A call ends in its arguments, and lacks its bracket then. -/
theorem closes_call {fuel fuel' : Nat} (hlt : fuel < fuel') (hN : N ≤ fuel) (name : Token) :
    Closes x P S N (call expr fuel name) (call expr' fuel' name) := by
  have hnode : ∀ args : Node, Takes S [] (do
      let callee ← term name
      node .call name [callee, args]) := fun _ => .bind_nil .term fun _ _ => .node
  have hclose : ∀ (P : List Token → Prop) (args : Node), Closes x P S N
      (do
        skipNewlines
        let _ ← Parser.expect .closing ")"
        let callee ← term name
        node .call name [callee, args])
      (do
        skipNewlines
        let _ ← Parser.expect .closing ")"
        let callee ← term name
        node .call name [callee, args]) :=
    fun P args => closes_closing (w := .round) rfl rfl (by decide) (fun _ => .term_bind fun _ => .node)
      fun _ => hnode args
  have htake : ∀ args : Node, Takes S [.round] (do
      skipNewlines
      let _ ← Parser.expect .closing ")"
      let callee ← term name
      node .call name [callee, args]) := fun args => takes_closing rfl rfl fun _ => hnode args
  -- a bracket that is closed at once
  have hempty : Takes S [.round] (do
      let t ← Parser.peek
      let args ← if t.kind = .closing then node .args t [] else args expr' fuel' t true
      skipNewlines
      let _ ← Parser.expect .closing ")"
      let callee ← term name
      node .call name [callee, args]) := by
    refine .peek_bind fun t ht => ?_
    have hkind : t.kind = .closing := ht.1
    rw [if_pos hkind]
    exact .bind_nil .node fun args _ => htake args
  have htracks : ∀ (t : Token) (P : List Token → Prop) y, Tracks y P False N 0 (args expr fuel t true)
      (args expr' fuel' t true) :=
    fun t P y => (tracks_args (h.needs _) (h.tracks y) (Nat.le_of_lt hlt) hN t true).any
  refine .andThen (fun _ => (Tracks.expect (by decide)).weak) (.expect (by decide)) fun _ => ?_
  refine .skipNewlines_bind (w := .round) (by decide) (.peek_bind_zero fun t _ => ?_) hempty
  refine .ite (fun _ => .node_bind (hclose _)) fun _ => ?_
  exact .bind (htracks t _) (closes_args h hlt hN t true) (hclose _) htake fun _ => .of_closing rfl

/-- A constant is rejected in an index. -/
def Rejects (bad : Node) (p : Parser α) : Prop :=
  ∃ what, ∀ c, p.run c = .error ⟨bad.token, .indexLiteral what⟩

/-- A value that must be integral. -/
theorem closes_integral {W : List Word} {f f' : Node → Parser β}
    (hbad : ∀ e bad, e.nonIntegral? = some bad → Rejects bad (f e) ∧ Rejects bad (f' e))
    (hf : ∀ e, e.nonIntegral? = none → Closes x Any S N (f e) (f' e))
    (hend : ∀ e, e.nonIntegral? = none → Takes S W (f' e)) (hleads : Leads Bound W S) :
    Closes x P S N (expr >>= f) (expr' >>= f') := by
  intro c hc hP hlt hends
  -- the value is completed, or it is there and what follows it has to be
  by_cases hfirst : Ends expr c
  · obtain ⟨first, hwords⟩ := h.closes c hc trivial hlt hfirst
    refine ⟨first ++ W, fun c' tokens rest hbehind hspelled hfuture => ?_⟩
    obtain ⟨tokens₁, tokens₂, rfl, hspelled₁, hspelled₂⟩ := Shape.forall₂_append_left.mp hspelled
    rw [List.append_assoc] at hbehind
    have hfuture₁ := hleads.future hspelled₂ hfuture
    refine (hwords c' tokens₁ _ hbehind hspelled₁ hfuture₁).bind fun e c₁ hrun hrest hending => ?_
    cases hintegral : e.nonIntegral? with
    | none =>
      rw [← hending] at hfuture
      exact (hend e hintegral).completed hspelled₂ hfuture hrest
    | some bad =>
      obtain ⟨what, hrejects⟩ := (hbad e bad hintegral).2
      obtain ⟨hmem, hplain⟩ := h.constants' c' e c₁ hfuture.closed hrun bad hintegral
      refine .inr ⟨_, what, hrejects c₁, rfl, hc.suffix.mem ?_⟩
      -- neither the W nor what follows them are such constants
      obtain ⟨newline, hnewline, hrest'⟩ := hbehind.rest_eq
      rw [hrest'] at hmem
      rcases List.mem_append.mp hmem with hmem | hmem
      · exact hmem
      · refine absurd ?_ hplain
        rcases List.mem_cons.mp hmem with heq | hmem
        · rw [heq, Token.Plain, kind_of_isNewline hnewline]
          decide
        · rcases List.mem_append.mp hmem with hmem | hmem
          · exact Spelled.plain hspelled₁ _ hmem
          · exact hfuture₁.plain _ hmem
  · refine Closes.beyond h.tracks (fun e c₁ hrun => ?_) (Nat.le_succ N) hc trivial hlt hfirst hends
    cases hintegral : e.nonIntegral? with
    | none => exact hf e hintegral
    | some bad =>
      obtain ⟨what, hrejects⟩ := (hbad e bad hintegral).1
      have hclosed : c.Closed := by
        rw [Cursor.Closed, hc.ending_eq]
        rintro _ ⟨rfl⟩
        rfl
      obtain ⟨hmem, -⟩ := h.constants c e c₁ hclosed hrun bad hintegral
      refine .of_steady fun c₂ _ _ hends₂ => hc.kind hmem ?_
      rw [Ends, hrejects c₂] at hends₂
      exact hends₂

/-- An index ends in its expression, and lacks its bracket then. -/
theorem closes_index (name : Token) : Closes x P S N (index expr name) (index expr' name) := by
  have htake : ∀ (array e : Node) (opening : Token), Takes S [.square] (do
      skipNewlines
      let closing ← Parser.expect .closing "]"
      let openTerm ← term opening
      let closeTerm ← term closing
      node .index name [array, openTerm, e, closeTerm]) := fun array e opening =>
    takes_closing rfl rfl fun _ => .bind_nil .term fun _ _ => .bind_nil .term fun _ _ => .node
  refine .term_bind fun leaf => .node_bind fun array => ?_
  refine .andThen (fun _ => (Tracks.expect (by decide)).weak) (.expect (by decide)) fun opening => ?_
  refine .skipNewlines_bind (w := .one) (W := [.square]) (by decide) ?_ ?_
  -- the expression may hold a constant that is no integer: then closing the bracket rejects it
  · refine closes_integral h (W := [.square]) (fun e bad hbad => ?_) (fun e hintegral => ?_)
      (fun e hintegral => ?_) fun _ => .of_closing rfl
    · rw [hbad]
      exact ⟨⟨_, fun _ => rfl⟩, ⟨_, fun _ => rfl⟩⟩
    · rw [hintegral]
      exact closes_closing (w := .square) rfl rfl (by decide)
        (fun _ => .term_bind fun _ => .term_bind fun _ => .node)
        fun _ => .bind_nil .term fun _ _ => .bind_nil .term fun _ _ => .node
    · rw [hintegral]
      exact htake array e opening
  · refine h.finishes.bind (fun e hintegral => ?_) fun _ => .of_closing rfl
    rw [hintegral]
    exact htake array e opening

/-- A primary ends at its first token only if it goes on with brackets. -/
theorem closes_primary {fuel fuel' : Nat} (hlt : fuel < fuel') (hN : N ≤ fuel) :
    Closes x P S (N + 1) (primary expr fuel) (primary expr' fuel') := by
  have hsingle : ∀ (P : List Token → Prop) (kind : Kind) (t : Token), Closes x P S N
      (do node kind t [← term t] : Parser Node) (do node kind t [← term t]) :=
    fun P kind t => .term_bind fun _ => .node
  refine .next_bind (fun t ht _ => ?_) fun t _ _ _ hnewline => ?_
  · cases hkind : t.kind with
    | int | float | string =>
      cases literal t with
      | error e => exact .fail_bind ht
      | ok v => exact hsingle _ _ t
    | global => exact hsingle _ _ t
    | opening =>
      refine .ite (fun _ => .fail_bind ht) fun _ => ?_
      -- an expression in brackets lacks its bracket, whether it was begun or not
      have hclose : ∀ e : Node, Takes S [.round] (do
          skipNewlines
          let closing ← Parser.expect .closing ")"
          let openTerm ← term t
          let closeTerm ← term closing
          node .paren t [openTerm, e, closeTerm]) := fun e =>
        takes_closing rfl rfl fun _ => .bind_nil .term fun _ _ => .bind_nil .term fun _ _ => .node
      refine .skipNewlines_bind (w := .one) (W := [.round]) (by decide) ?_ ?_
      · refine .bind h.tracks h.closes (fun e => ?_) hclose fun _ => .of_closing rfl
        exact closes_closing (w := .round) rfl rfl (by decide)
          (fun _ => .term_bind fun _ => .term_bind fun _ => .node)
          fun _ => .bind_nil .term fun _ _ => .bind_nil .term fun _ _ => .node
      · exact h.finishes.bind (fun e _ => hclose e) fun _ => .of_closing rfl
    | ident =>
      refine .ite (fun _ => hsingle _ _ t) fun _ => .ite (fun _ => .fail ht) fun _ => ?_
      refine .peek_bind_zero fun ahead _ => ?_
      exact .ite (fun _ => closes_call h hlt hN t) fun _ =>
        .ite (fun _ => closes_index h t) fun _ => hsingle _ _ t
    | _ => exact .fail ht
  · rw [kind_of_isNewline hnewline]
    exact refuses_fail hnewline

end Expressions

theorem isNewline_of_isSign {t : Token} (h : isSign t = true) : t.isNewline = false := by
  refine isNewline_of_kind ?_
  rcases Shape.isSign_kind h with hkind | ⟨hkind, -⟩ <;> rw [hkind] <;> decide

/-- An operator is no line feed. -/
theorem isNewline_of_operator {t : Token} {op : Operator} (h : Operator.ofToken? t = some op) :
    t.isNewline = false := by
  refine isNewline_of_kind fun hkind => ?_
  rw [ofToken?_of_kind (by rw [hkind]; decide) (by rw [hkind]; decide)] at h
  cases h

/-- Signs are followed by an operand, which ends the lines if anything does. -/
theorem closes_unary {P : List Token → Prop} {n : Nat} {operand operand' : Parser Node}
    (hneeds : ∀ ending, Needs ending operand) (htracks : ∀ y, Tracks y Any False n 1 operand operand')
    (h : Closes x Any S n operand operand') {fuel fuel' : Nat} (hle : fuel ≤ fuel') (hn : n ≤ fuel) :
    Closes x P S n (unary operand fuel) (unary operand' fuel') := by
  -- on the fuel, which bounds the number of signs
  induction fuel generalizing fuel' n P with
  | zero =>
    obtain rfl := Nat.le_zero.mp hn
    exact .none
  | succ fuel ih =>
    cases n with
    | zero => exact .none
    | succ n =>
      obtain ⟨fuel', rfl⟩ : ∃ m, fuel' = m + 1 := ⟨fuel' - 1, by omega⟩
      have htracks' : ∀ y, Tracks y Any False n 1 operand operand' :=
        fun y => (htracks y).weaken (Nat.le_succ n)
      have hrest : ∀ {P}, Closes x P S n (unary operand fuel) (unary operand' fuel') :=
        ih htracks' (h.weaken (Nat.le_succ n)) (by omega) (by omega)
      refine .peek_bind_zero fun t _ => .ite (fun hsign => ?_) fun _ => h.any
      refine .skip_bind Any (fun l hl => ⟨t, hl.2, isNewline_of_isSign hsign, trivial⟩) ?_
      have htracks₁ : ∀ y, Tracks y Any False n 1 (unary operand fuel) (unary operand' fuel') :=
        fun y => tracks_unary (hneeds _) (htracks' y) (by omega) (by omega)
      exact .term_bind fun op => .bind_nil htracks₁ hrest (fun _ => .node) fun _ => .node

/-- The climb ends in one of its operands, or behind an operator, where line feeds are skipped. -/
theorem closes_climb {P : List Token → Prop} {n : Nat} {right right' : Nat → Parser Node}
    (hright : ∀ limit, Repairs x n (right limit) (right' limit)) (limit : Nat) {fuel fuel' : Nat}
    (hlt : fuel < fuel') (hn : n ≤ fuel) (left : Node) :
    Closes x P Bound n (climb right limit fuel left) (climb right' limit fuel' left) := by
  induction fuel generalizing fuel' n P left with
  | zero =>
    obtain rfl := Nat.le_zero.mp hn
    exact .none
  | succ fuel ih =>
    cases n with
    | zero => exact .none
    | succ n =>
      obtain ⟨fuel', rfl⟩ : ∃ m, fuel' = m + 2 := ⟨fuel' - 2, by omega⟩
      have hright' : ∀ limit, Repairs x n (right limit) (right' limit) :=
        fun limit => (hright limit).weaken (Nat.le_succ n)
      -- behind a completed operand the expression stops
      have htake : ∀ (t : Token) (op : Operator) (r : Node), Takes Bound [] (do
          let opTerm ← term t
          let whole ← node op.kind left.token [left, opTerm, r]
          climb right' limit (fuel' + 1) whole) := fun t op r =>
        .bind_nil .term fun _ _ => .bind_nil .node fun _ _ => finishes_climb _ limit fuel' trivial
      refine .peek_bind_zero fun t _ => ?_
      cases hop : Operator.ofToken? t with
      | none => exact .pure
      | some op =>
        refine .ite (fun _ => .pure) fun _ => ?_
        refine .skip_bind Any (fun l hl => ⟨t, hl.2, isNewline_of_operator hop, trivial⟩) ?_
        refine .skipNewlines_bind (w := .one) (W := []) (by decide) ?_ ?_
        · refine .bind_nil (hright' _).tracks (hright' _).closes (fun r => ?_) (htake t op)
          refine .term_bind fun opTerm => .node_bind fun whole => ?_
          exact ih hright' (by omega) (by omega) whole
        · exact (hright' _).finishes.bind (fun r _ => htake t op r) fun _ => id

/-- The constants of an expression are among its tokens. -/
theorem findsConstants_binary (fuel limit : Nat) : FindsConstants (binary fuel limit) := by
  intro c n c' hc hrun bad hbad
  obtain ⟨e, rfl, hreads, -⟩ := readsWithin_binary fuel limit c hc n c' hrun
  obtain ⟨sig, hread, hspells⟩ := hreads.read
  obtain ⟨used, hrest, rfl⟩ := hread.used
  obtain ⟨hmem, hplain⟩ := Shape.mem_of_nonIntegral? e hspells hbad
  rw [hrest]
  exact ⟨List.mem_append_left _ (List.mem_of_mem_filter hmem), hplain⟩

/-- With the completion of an expression, all else that `Repairs` asks for is known. -/
theorem repairs_of_closes {fuel fuel' : Nat} (hlt : fuel < fuel') {limit : Nat}
    (h : Closes x Any Bound fuel (binary fuel limit) (binary fuel' limit)) :
    Repairs x fuel (binary fuel limit) (binary fuel' limit) := by
  obtain ⟨fuel', rfl⟩ : ∃ m, fuel' = m + 1 := ⟨fuel' - 1, by omega⟩
  exact ⟨fun _ => needs_binary fuel limit, fun _ => tracks_binary (Nat.le_of_lt hlt) limit, h,
    finishes_binary fuel' limit, findsConstants_binary fuel limit, findsConstants_binary _ limit⟩

/-- An expression is completed, by induction on the fuel. -/
theorem closes_binary {fuel fuel' : Nat} (hlt : fuel < fuel') (limit : Nat) :
    Closes x Any Bound fuel (binary fuel limit) (binary fuel' limit) := by
  induction fuel generalizing fuel' limit with
  | zero => exact .none
  | succ fuel ih =>
    obtain ⟨fuel', rfl⟩ : ∃ m, fuel' = m + 1 := ⟨fuel' - 1, by omega⟩
    -- operands are completed by induction on the fuel
    have hbinary : ∀ limit, Repairs x fuel (binary fuel limit) (binary fuel' limit) :=
      fun limit => repairs_of_closes (by omega) (ih (by omega) limit)
    have hneeds : ∀ ending, Needs ending (primary (binary fuel Operator.loosest) (fuel + 1)) :=
      fun _ => needs_primary _
    have htracks : ∀ y, Tracks y Any False (fuel + 1) 1 (primary (binary fuel Operator.loosest) (fuel + 1))
        (primary (binary fuel' Operator.loosest) (fuel' + 1)) := fun y =>
      tracks_primary (needs_binary fuel _) ((hbinary _).tracks y) (Nat.le_of_lt hlt) (Nat.le_succ fuel)
    have hprimary : Closes x Any Bound (fuel + 1) (primary (binary fuel Operator.loosest) (fuel + 1))
        (primary (binary fuel' Operator.loosest) (fuel' + 1)) :=
      closes_primary (hbinary _) hlt (Nat.le_succ fuel)
    refine .bind_taken_nil (fun y => tracks_unary (hneeds _) (htracks y) (Nat.le_of_lt hlt) (Nat.le_refl _))
      (closes_unary hneeds htracks hprimary (Nat.le_of_lt hlt) (Nat.le_refl _)) (fun left => ?_) fun left => ?_
    · exact closes_climb hbinary limit hlt (Nat.le_succ fuel) left
    · exact finishes_climb _ limit fuel' trivial

/-- With more fuel an expression can be completed. -/
theorem repairs_expr {fuel fuel' : Nat} (hlt : fuel < fuel') : Repairs x fuel (expr fuel) (expr fuel') :=
  repairs_of_closes hlt (closes_binary hlt _)

end Parser

end ScriptPir

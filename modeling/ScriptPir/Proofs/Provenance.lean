import ScriptPir.Proofs.Paths
import ScriptPir.Proofs.StatementParsing

/-!
# Where the tokens of a tree come from

The parser makes nodes of the tokens that it looks at, and of no others: if all tokens of a source have
a property, and the end of input has it, then every node of the tree bears a token with that property. So
does every error, unless it is the fault at which the source could not be read on.

`Parser.Draws Q p P` says this of one step: from a cursor that offers only tokens with `Q`, it leaves such
a cursor, and its result satisfies `P`. The productions are followed in the order in which they call each
other.

Main statements: `token_of_parse` and `token_of_parse_error` — the token of every node, and of every error,
is one of the source, or the end of input.
-/

namespace ScriptPir

/-! ## Tokens of cursors and trees

The property of tokens is a parameter throughout: it is instantiated by `is one of the source`, and
elsewhere by `is not the end of input`. -/

/-- All tokens that can be read from a cursor have a property. -/
def Cursor.Offers (Q : Token → Prop) (c : Cursor) : Prop :=
  (∀ t ∈ c.rest, Q t) ∧ ∀ t, c.ending = .ok t → Q t

/-- The tokens of all nodes of a tree have a property, and the tree is there. -/
def Node.Bears (Q : Token → Prop) (n : Node) : Prop :=
  n ≠ .absent ∧ ∀ m ∈ n.nodesOnto [], Q m.token

/-- A node bears tokens with a property if it and its children do. -/
theorem Node.bears_mk {Q : Token → Prop} {id : Int} {kind : Kind} {t : Token} {children : List Node}
    (ht : Q t) (hchildren : ∀ n ∈ children, n.Bears Q) : (Node.mk id kind t children).Bears Q := by
  refine ⟨Node.noConfusion, fun m hm => ?_⟩
  rcases Node.mem_nodes_mk.mp hm with rfl | ⟨n, hn, hm⟩
  · exact ht
  · exact (hchildren n hn).2 m hm

/-- The root of a tree bears a token with the property. -/
theorem Node.Bears.token {Q : Token → Prop} {n : Node} (h : n.Bears Q) : Q n.token := by
  cases n with
  | absent => exact absurd rfl h.1
  | mk => exact h.2 _ List.mem_cons_self

/-- A token that is looked at has the property. -/
theorem Cursor.Offers.ahead {Q : Token → Prop} {c : Cursor} (h : c.Offers Q) {i : Nat} {t : Token}
    (ht : c.ahead i = .ok t) : Q t := by
  unfold Cursor.ahead at ht
  split at ht
  · rename_i u hu
    cases ht
    exact h.1 t (List.mem_of_getElem? hu)
  · exact h.2 t ht

/-- A constant that an index rejects is a node of it. -/
theorem Node.token_of_nonIntegral? {Q : Token → Prop} (n : Node) (hn : ∀ m ∈ n.nodesOnto [], Q m.token)
    {bad : Node} (h : n.nonIntegral? = some bad) : Q bad.token := by
  cases n with
  | absent => cases h
  | mk id kind token children =>
    have hchildren : ∀ m ∈ children, ∀ k ∈ m.nodesOnto [], Q k.token :=
      fun m hm k hk => hn k (Node.mem_nodes_mk.mpr (.inr ⟨m, hm, hk⟩))
    -- a constant is told by its own token, calls and elements are not looked into, all others below
    by_cases hliteral : kind = .literal
    · subst hliteral
      cases children with
      | nil => cases h
      | cons c rest =>
        simp only [Node.nonIntegral?] at h
        split at h
        · cases h
          exact hn _ (Node.mem_nodes_mk.mpr (.inl rfl))
        · cases h
    by_cases hindex : kind = .index
    · subst hindex
      cases h
    by_cases hcall : kind = .call
    · subst hcall
      cases h
    rw [Shape.nonIntegral?_mk hliteral hindex hcall] at h
    obtain ⟨m, hm, hbad⟩ := Shape.nonIntegralAny?_eq_some h
    exact Node.token_of_nonIntegral? m (hchildren m hm) hbad
termination_by n
decreasing_by
  have := List.sizeOf_lt_of_mem hm
  decreasing_tactic

/-- Whether a fault is one of the lexer. -/
def SyntaxFault.isLexical : SyntaxFault → Bool
  | .lexical _ => true
  | _ => false

/-- An error of the parser is at a token with a property; what else ends a parse stands behind the last
token. -/
def SyntaxError.Blames (Q : Token → Prop) (ending : Except SyntaxError Token) (e : SyntaxError) : Prop :=
  (Q e.token ∧ e.fault.isLexical = false) ∨ ending = .error e

namespace Parser

variable {Q : Token → Prop} {α β : Type}

/-- From a cursor that offers only tokens with a property a step leaves such a cursor, or it blames such a
token. -/
def Draws (Q : Token → Prop) (p : Parser α) (P : α → Prop) : Prop :=
  ∀ c, c.Offers Q →
    match p.run c with
    | .ok (a, c') => P a ∧ c'.Offers Q ∧ c'.ending = c.ending
    | .error e => e.Blames Q c.ending

namespace Draws

variable {P : α → Prop} {R : β → Prop}

theorem pure {a : α} (h : P a) : Draws Q (Pure.pure a : Parser α) P :=
  fun _ hc => ⟨h, hc, rfl⟩

/-- A sequence draws good tokens if both parts do. -/
theorem bind {p : Parser α} {f : α → Parser β} (hp : Draws Q p P) (hf : ∀ a, P a → Draws Q (f a) R) :
    Draws Q (p >>= f) R := by
  intro c hc
  have h := hp c hc
  rw [StateT.run_bind]
  cases hrun : p.run c with
  | error e =>
    rw [hrun] at h
    exact h
  | ok r =>
    rw [hrun] at h
    -- what stands behind the last token is the same for both parts
    rw [← h.2.2]
    exact hf r.1 h.1 r.2 h.2.1

theorem mono {p : Parser α} {P' : α → Prop} (hp : Draws Q p P) (h : ∀ a, P a → P' a) :
    Draws Q p P' := by
  have hbind : Draws Q (p >>= Pure.pure) P' := hp.bind fun a ha => pure (h a ha)
  rwa [bind_pure] at hbind

theorem map {p : Parser α} {f : α → β} (hp : Draws Q p P) (hf : ∀ a, P a → R (f a)) :
    Draws Q (f <$> p) R := by
  rw [map_eq_pure_bind]
  exact hp.bind fun a ha => pure (hf a ha)

theorem fail {t : Token} {fault : SyntaxFault} (ht : Q t) (hfault : fault.isLexical = false) :
    Draws Q (fail t fault : Parser α) P :=
  fun _ _ => .inl ⟨ht, hfault⟩

theorem fail_bind {t : Token} {fault : SyntaxFault} {f : α → Parser β} (ht : Q t)
    (hfault : fault.isLexical = false) : Draws Q (Parser.fail t fault >>= f) R :=
  fun _ _ => .inl ⟨ht, hfault⟩

/-- A choice draws good tokens if both branches do. -/
theorem ite {b : Prop} [Decidable b] {p q : Parser α} (hp : Draws Q p P) (hq : Draws Q q P) :
    Draws Q (if b then p else q) P := by
  split
  · exact hp
  · exact hq

/-- A choice whose branches go on in the same way. -/
theorem ite_bind {b : Prop} [Decidable b] {p q : Parser α} {f : α → Parser β} (hp : Draws Q p P)
    (hq : Draws Q q P) (hf : ∀ a, P a → Draws Q (f a) R) :
    Draws Q (if b then p >>= f else q >>= f) R :=
  .ite (hp.bind hf) (hq.bind hf)

/-! ## Primitive parsers

Tokens come into the parse here only: by looking at them and by taking them. -/

/-- A token that is looked at has the property, and a fault in its place is that behind the last token.
-/
theorem peek (i : Nat := 0) : Draws Q (peek i) Q := by
  intro c hc
  rw [run_peek]
  cases hahead : c.ahead i with
  | ok t => exact ⟨hc.ahead hahead, hc, rfl⟩
  | error e =>
    refine .inr ?_
    unfold Cursor.ahead at hahead
    split at hahead
    · cases hahead
    · exact hahead

theorem advanced {c : Cursor} (hc : c.Offers Q) : c.advanced.Offers Q :=
  ⟨fun t ht => hc.1 t (List.mem_of_mem_tail ht), hc.2⟩

theorem next : Draws Q next Q :=
  (peek 0).bind fun _ ht _ hc => ⟨ht, advanced hc, rfl⟩

theorem skip : Draws Q skip fun _ => True := next.bind fun _ _ => .pure trivial

theorem skipNewlines : Draws Q skipNewlines fun _ => True :=
  fun _ hc => ⟨trivial, ⟨fun t ht => hc.1 t ((List.dropWhile_suffix _).mem ht), hc.2⟩, rfl⟩

theorem fresh : Draws Q fresh fun _ => True := fun _ hc => ⟨trivial, hc, rfl⟩

/-- A node bears the token that it is made of, and those of its children. -/
theorem node {kind : Kind} {t : Token} {children : List Node} (ht : Q t)
    (hchildren : ∀ n ∈ children, n.Bears Q) : Draws Q (node kind t children) (Node.Bears Q) :=
  fresh.bind fun _ _ => .pure (Node.bears_mk ht hchildren)

theorem term {t : Token} (ht : Q t) : Draws Q (term t) (Node.Bears Q) := node ht nofun

theorem expectKeyword {word : String} : Draws Q (expectKeyword word) Q :=
  next.bind fun _ ht => .ite (.pure ht) (.fail ht rfl)

theorem expect {kind : TokenKind} {text : String} : Draws Q (expect kind text) Q :=
  next.bind fun _ ht => .ite (.pure ht) (.fail ht rfl)

theorem expectName {what : String} : Draws Q (expectName what) Q :=
  next.bind fun _ ht => .ite (.pure ht) (.fail ht rfl)

theorem tooDeep : Draws Q (do Parser.fail (← Parser.peek) .tooDeep : Parser α) P :=
  (peek 0).bind fun _ ht => .fail ht rfl

end Draws

/-! ## Expressions

Each production passes the tokens that it took on to the nodes that it makes. -/

section Expressions

variable {expr : Parser Node} (hexpr : Draws Q expr (Node.Bears Q))

include hexpr

/-- Arguments bear tokens that were offered. -/
theorem draws_arguments (bracketed : Bool) (fuel : Nat) :
    Draws Q (arguments expr bracketed fuel) fun ns => ∀ n ∈ ns, n.Bears Q := by
  induction fuel with
  | zero => exact .tooDeep
  | succ fuel ih =>
    rw [arguments_succ]
    refine .bind (.peek 0) fun t ht => .bind (P := fun _ => True) ?_ fun named _ => ?_
    · exact .ite (.map (.peek 1) fun _ _ => trivial) (.pure trivial)
    -- an argument, then a comma or the end of the list
    have harg : Draws Q (argument expr t named) (Node.Bears Q) := by
      refine .ite ?_ (hexpr.bind fun value hvalue => .node ht (by simpa using hvalue))
      refine .bind .skip fun _ _ => .bind .skip fun _ _ => .bind (.term ht) fun name hname => ?_
      exact hexpr.bind fun value hvalue => .node ht (by simpa using ⟨hname, hvalue⟩)
    have hseparator : Draws Q (separator bracketed) fun _ => True :=
      .bind .skip fun _ _ => .ite .skipNewlines (.pure trivial)
    refine harg.bind fun arg harg => .bind (.peek 0) fun _ _ => ?_
    refine .ite (.pure (by simpa using harg)) (hseparator.bind fun _ _ => ?_)
    exact ih.bind fun ns hns => .pure (List.forall_mem_cons.mpr ⟨harg, hns⟩)

/-- A list of arguments bears tokens that were offered. -/
theorem draws_args (fuel : Nat) {t : Token} (ht : Q t) (bracketed : Bool) :
    Draws Q (args expr fuel t bracketed) (Node.Bears Q) :=
  .bind .fresh fun _ _ => (draws_arguments hexpr bracketed fuel).bind fun _ hns =>
    .pure (Node.bears_mk ht hns)

/-- A call bears tokens that were offered. -/
theorem draws_call (fuel : Nat) {name : Token} (hname : Q name) :
    Draws Q (call expr fuel name) (Node.Bears Q) := by
  refine .bind .expect fun _ _ => .bind .skipNewlines fun _ _ => .bind (.peek 0) fun t ht => ?_
  refine .ite_bind (.node ht nofun) (draws_args hexpr fuel ht true) fun args hargs => ?_
  refine .bind .skipNewlines fun _ _ => .bind .expect fun _ _ => ?_
  refine .bind (.term hname) fun callee hcallee => .node hname ?_
  simpa using ⟨hcallee, hargs⟩

/-- An element of an array bears tokens that were offered; a constant that is no index is blamed at its
own. -/
theorem draws_index {name : Token} (hname : Q name) :
    Draws Q (index expr name) (Node.Bears Q) := by
  refine .bind (.term hname) fun leaf hleaf => .bind (.node hname (by simpa using hleaf)) fun array harray => ?_
  refine .bind .expect fun opening hopening => .bind .skipNewlines fun _ _ => ?_
  refine hexpr.bind fun e he => ?_
  cases hbad : e.nonIntegral? with
  | some bad => exact .fail_bind (Node.token_of_nonIntegral? e he.2 hbad) rfl
  | none =>
    refine .bind .skipNewlines fun _ _ => .bind .expect fun closing hclosing => ?_
    refine .bind (.term hopening) fun o ho => .bind (.term hclosing) fun d hd => .node hname ?_
    simpa using ⟨harray, ho, he, hd⟩

/-- A primary expression bears tokens that were offered. -/
theorem draws_primary (fuel : Nat) : Draws Q (primary expr fuel) (Node.Bears Q) := by
  -- three sorts of tokens are taken alone
  have hsingle : ∀ (kind : Kind) (t : Token), Q t →
      Draws Q (do node kind t [← term t] : Parser Node) (Node.Bears Q) :=
    fun kind t ht => .bind (.term ht) fun leaf hleaf => .node ht (by simpa using hleaf)
  refine .bind .next fun t ht => ?_
  split
  iterate 3
    cases literal t with
    | error e => exact .fail_bind ht rfl
    | ok v => exact hsingle _ t ht
  · exact hsingle _ t ht
  · refine .ite (.fail_bind ht rfl) ?_
    refine .bind .skipNewlines fun _ _ => hexpr.bind fun e he => .bind .skipNewlines fun _ _ => ?_
    refine .bind .expect fun closing hclosing => .bind (.term ht) fun o ho => ?_
    refine .bind (.term hclosing) fun d hd => .node ht ?_
    simpa using ⟨ho, he, hd⟩
  · refine .ite (hsingle _ t ht) (.ite (.fail ht rfl) (.bind (.peek 0) fun _ _ => ?_))
    exact .ite (draws_call hexpr fuel ht) (.ite (draws_index hexpr ht) (hsingle _ t ht))
  · exact .fail ht rfl

end Expressions

/-- A signed expression bears tokens that were offered. -/
theorem draws_unary {operand : Parser Node} (h : Draws Q operand (Node.Bears Q)) (fuel : Nat) :
    Draws Q (unary operand fuel) (Node.Bears Q) := by
  induction fuel with
  | zero => exact .tooDeep
  | succ fuel ih =>
    refine .bind (.peek 0) fun t ht => .ite ?_ h
    refine .bind .skip fun _ _ => .bind (.term ht) fun op hop => ih.bind fun e he => .node ht ?_
    simpa using ⟨hop, he⟩

/-- An operation bears the token of its left side, and others that were offered. -/
theorem draws_climb {right : Nat → Parser Node} (h : ∀ limit, Draws Q (right limit) (Node.Bears Q))
    (limit fuel : Nat) {left : Node} (hleft : left.Bears Q) :
    Draws Q (climb right limit fuel left) (Node.Bears Q) := by
  induction fuel generalizing left with
  | zero => exact .tooDeep
  | succ fuel ih =>
    refine .bind (.peek 0) fun t ht => ?_
    cases Operator.ofToken? t with
    | none => exact .pure hleft
    | some op =>
      refine .ite (.pure hleft) (.bind .skip fun _ _ => .bind .skipNewlines fun _ _ => ?_)
      refine (h _).bind fun r hr => .bind (.term ht) fun opTerm hop => ?_
      exact .bind (.node hleft.token (by simpa using ⟨hleft, hop, hr⟩)) fun whole hwhole => ih hwhole

/-- An expression bears tokens that were offered. -/
theorem draws_binary (fuel limit : Nat) : Draws Q (binary fuel limit) (Node.Bears Q) := by
  induction fuel generalizing limit with
  | zero => exact .tooDeep
  | succ fuel ih =>
    exact (draws_unary (draws_primary (ih _) (fuel + 1)) (fuel + 1)).bind fun left hleft =>
      draws_climb ih limit (fuel + 1) hleft

/-! ## Statements

A construct passes on its keyword and the trees of its parts, in the order in which it parses them. -/

/-- A parser of trees that bear only tokens with a property. -/
abbrev DrawsTrees (Q : Token → Prop) (p : Parser (List Node)) : Prop :=
  Draws Q p fun ns => ∀ n ∈ ns, n.Bears Q

/-- Statements bear tokens that were offered. -/
theorem draws_stmts {stmt : Parser Node} (h : Draws Q stmt (Node.Bears Q)) (stops : List String)
    (fuel : Nat) : DrawsTrees Q (stmts stmt stops fuel) := by
  induction fuel with
  | zero => exact .tooDeep
  | succ fuel ih =>
    refine .bind (.peek 0) fun _ _ => .ite (.bind .skip fun _ _ => ih) (.ite (.pure (by simp)) ?_)
    refine h.bind fun s hs => .bind (.peek 0) fun after hafter => ?_
    -- after a statement there is a separator or the end of the block, or the token there is blamed
    have hrest : ∀ _ : Unit, True → DrawsTrees Q (do
        return s :: (← stmts stmt stops fuel)) :=
      fun _ _ => ih.bind fun ns hns => .pure (List.forall_mem_cons.mpr ⟨hs, hns⟩)
    exact .ite (.bind .skip hrest) (.ite (.fail_bind hafter rfl) (hrest () trivial))

/-- The body of a construct bears tokens that were offered. -/
theorem draws_body {stmt : Parser Node} (h : Draws Q stmt (Node.Bears Q)) (fuel : Nat)
    (stops : List String) : Draws Q (body stmt fuel stops) (Node.Bears Q) := by
  refine .bind (.peek 0) fun t ht => .bind (P := Node.Bears Q) ?_ fun list hlist =>
    .node ht (by simpa using hlist)
  exact .bind (.peek 0) fun first hfirst => (draws_stmts h stops fuel).bind fun ns hns =>
    .node hfirst hns

section Statements

variable {expr : Parser Node} {block : List String → Parser Node}

/-- A condition bears tokens that were offered. -/
theorem draws_condition (hexpr : Draws Q expr (Node.Bears Q)) (word : String) :
    Draws Q (condition expr word) (Node.Bears Q) := by
  refine .bind (.peek 0) fun t ht => hexpr.bind fun e he => .bind (.peek 0) fun after hafter => ?_
  have hnode : Draws Q (node .cond t [e]) (Node.Bears Q) := .node ht (by simpa using he)
  exact .ite (.bind .skip fun _ _ => hnode) (.ite (.fail_bind hafter rfl) hnode)

/-- Further arms bear tokens that were offered. -/
theorem draws_elsifArms (hexpr : Draws Q expr (Node.Bears Q))
    (hblock : ∀ stops, Draws Q (block stops) (Node.Bears Q)) (fuel : Nat) :
    DrawsTrees Q (elsifArms expr block fuel) := by
  induction fuel with
  | zero => exact .tooDeep
  | succ fuel ih =>
    refine .bind (.peek 0) fun t ht => .ite (.bind .skip fun _ _ => ?_) (.pure (by simp))
    refine (draws_condition hexpr _).bind fun c hc => (hblock _).bind fun b hb => ?_
    refine .bind (.node ht (by simpa using ⟨hc, hb⟩)) fun arm harm => ih.bind fun ns hns => ?_
    exact .pure (List.forall_mem_cons.mpr ⟨harm, hns⟩)

/-- The last arm bears tokens that were offered. -/
theorem draws_elseArm (hblock : ∀ stops, Draws Q (block stops) (Node.Bears Q)) :
    DrawsTrees Q (elseArm block) := by
  refine .bind (.peek 0) fun t ht => .ite (.bind .skip fun _ _ => ?_) (.pure (by simp))
  refine (hblock _).bind fun b hb => .bind (.node ht (by simpa using hb)) fun arm harm => ?_
  exact .pure (by simpa using harm)

/-- A branch bears tokens that were offered. -/
theorem draws_ifStmt (hexpr : Draws Q expr (Node.Bears Q))
    (hblock : ∀ stops, Draws Q (block stops) (Node.Bears Q)) (fuel : Nat) :
    Draws Q (ifStmt expr block fuel) (Node.Bears Q) := by
  refine .bind .expectKeyword fun t ht => (draws_condition hexpr _).bind fun c hc => ?_
  refine (hblock _).bind fun b hb => (draws_elsifArms hexpr hblock fuel).bind fun arms harms => ?_
  refine (draws_elseArm hblock).bind fun last hlast => .bind .expectKeyword fun _ _ => .node ht ?_
  simp only [List.cons_append, List.forall_mem_cons, List.forall_mem_append]
  exact ⟨hc, hb, harms, hlast⟩

/-- A negated branch bears tokens that were offered. -/
theorem draws_unlessStmt (hexpr : Draws Q expr (Node.Bears Q))
    (hblock : ∀ stops, Draws Q (block stops) (Node.Bears Q)) :
    Draws Q (unlessStmt expr block) (Node.Bears Q) := by
  refine .bind .expectKeyword fun t ht => (draws_condition hexpr _).bind fun c hc => ?_
  refine (hblock _).bind fun b hb => (draws_elseArm hblock).bind fun last hlast => ?_
  refine .bind .expectKeyword fun _ _ => .node ht ?_
  simp only [List.forall_mem_cons]
  exact ⟨hc, hb, hlast⟩

/-- A loop bears tokens that were offered. -/
theorem draws_whileLoop (hexpr : Draws Q expr (Node.Bears Q))
    (hblock : ∀ stops, Draws Q (block stops) (Node.Bears Q)) :
    Draws Q (whileLoop expr block) (Node.Bears Q) := by
  refine .bind .expectKeyword fun t ht => (draws_condition hexpr _).bind fun c hc => ?_
  refine (hblock _).bind fun b hb => .bind .expectKeyword fun _ _ => .node ht ?_
  simpa using ⟨hc, hb⟩

/-- An assignment bears tokens that were offered, in all of its forms. -/
theorem draws_assignment (hexpr : Draws Q expr (Node.Bears Q)) :
    Draws Q (assignment expr) (Node.Bears Q) := by
  refine .bind .next fun name hname => .bind (.peek 0) fun _ _ => .ite ?_ ?_
  · refine (draws_index hexpr hname).bind fun target htarget => .bind .next fun op hop => ?_
    refine .ite (.fail_bind hop rfl) (.bind (.term hop) fun opTerm hopTerm => hexpr.bind fun e he => ?_)
    exact .node hname (by simpa using ⟨htarget, hopTerm, he⟩)
  refine .bind .next fun op hop => .ite (.fail_bind hop rfl) ?_
  refine .ite_bind (.peek 0) (.pure hop) fun t ht => .ite ?_ ?_
  · refine .bind .skip fun _ _ => .bind .next fun closing hclosing => .ite (.fail_bind hclosing rfl) ?_
    refine .bind (.term hname) fun nameTerm hn => .bind (.term hop) fun opTerm ho => ?_
    exact .node hname (by simpa using ⟨hn, ho⟩)
  refine .ite_bind (P := fun _ => True) (.map (.peek 1) fun _ _ => trivial) (.pure trivial)
    fun _ _ => .ite ?_ ?_
  · refine .bind .skip fun _ _ => .bind (.term hname) fun nameTerm hn => ?_
    refine .bind (.term hop) fun opTerm ho => .bind (.term ht) fun global hg => ?_
    exact .node hname (by simpa using ⟨hn, ho, hg⟩)
  · refine .bind .skipNewlines fun _ _ => .bind (.term hname) fun nameTerm hn => ?_
    refine .bind (.term hop) fun opTerm ho => hexpr.bind fun e he => ?_
    exact .node hname (by simpa using ⟨hn, ho, he⟩)

/-- The assignments in a header bear tokens that were offered. -/
theorem draws_forAssignments (hexpr : Draws Q expr (Node.Bears Q)) (fuel : Nat) :
    DrawsTrees Q (forAssignments expr fuel) := by
  induction fuel with
  | zero => exact .tooDeep
  | succ fuel ih =>
    refine .bind (.peek 0) fun t ht => ?_
    refine .ite_bind (P := fun _ => True) (.map (.peek 1) fun _ _ => trivial) (.pure trivial) ?_
    refine fun _ _ => .ite (.fail_bind ht rfl) ((draws_assignment hexpr).bind fun a ha => ?_)
    refine .bind (.peek 0) fun _ _ => .ite (.pure (by simpa using ha)) (.bind .skip fun _ _ => ?_)
    exact ih.bind fun ns hns => .pure (List.forall_mem_cons.mpr ⟨ha, hns⟩)

/-- A part of a header bears tokens that were offered. -/
theorem draws_forClause (hexpr : Draws Q expr (Node.Bears Q)) (fuel : Nat) (kind : Kind)
    (close : String) : Draws Q (forClause expr fuel kind close) (Node.Bears Q) := by
  refine .bind (.peek 0) fun t ht => .bind .fresh fun _ _ => ?_
  refine .ite (.pure (Node.bears_mk ht nofun)) ?_
  exact (draws_forAssignments hexpr fuel).bind fun ns hns => .pure (Node.bears_mk ht hns)

/-- A loop with a header bears tokens that were offered. -/
theorem draws_forLoop (hexpr : Draws Q expr (Node.Bears Q))
    (hblock : ∀ stops, Draws Q (block stops) (Node.Bears Q)) (fuel : Nat) :
    Draws Q (forLoop expr block fuel) (Node.Bears Q) := by
  refine .bind .expectKeyword fun t ht => .bind .expect fun _ _ => ?_
  refine (draws_forClause hexpr fuel _ _).bind fun init hinit => .bind .expect fun _ _ => ?_
  refine .bind (.peek 0) fun u hu => hexpr.bind fun e he => ?_
  refine .bind (.node hu (by simpa using he)) fun c hc => .bind .expect fun _ _ => ?_
  refine (draws_forClause hexpr fuel _ _).bind fun step hstep => .bind .expect fun _ _ => ?_
  refine (hblock _).bind fun b hb => .bind .expectKeyword fun _ _ => .node ht ?_
  simpa using ⟨hinit, hc, hstep, hb⟩

/-- The names of parameters bear tokens that were offered. -/
theorem draws_paramNames (fuel : Nat) : DrawsTrees Q (paramNames fuel) := by
  induction fuel with
  | zero => exact .tooDeep
  | succ fuel ih =>
    refine .bind .expectName fun t ht => .bind (.term ht) fun p hp => .bind (.peek 0) fun _ _ => ?_
    refine .ite (.pure (by simpa using hp)) (.bind .skip fun _ _ => .bind .skipNewlines fun _ _ => ?_)
    exact ih.bind fun ns hns => .pure (List.forall_mem_cons.mpr ⟨hp, hns⟩)

/-- The parameters of a function bear tokens that were offered. -/
theorem draws_params (fuel : Nat) : Draws Q (params fuel) (Node.Bears Q) := by
  have hnames : DrawsTrees Q (paramNames fuel) := draws_paramNames fuel
  refine .bind (.peek 0) fun t ht => .bind .fresh fun _ _ => .ite ?_ (.ite ?_ ?_)
  · refine .bind .skip fun _ _ => .bind .skipNewlines fun _ _ => .bind (.peek 0) fun _ _ => ?_
    refine .ite_bind hnames (.pure (by simp)) fun ns hns => .bind .skipNewlines fun _ _ => ?_
    exact .bind .expect fun _ _ => .pure (Node.bears_mk ht hns)
  · exact hnames.bind fun ns hns => .pure (Node.bears_mk ht hns)
  · exact .pure (Node.bears_mk ht nofun)

/-- A function bears tokens that were offered. -/
theorem draws_funcDef (hblock : ∀ stops, Draws Q (block stops) (Node.Bears Q)) (fuel : Nat)
    (inBlock : Bool) : Draws Q (funcDef block fuel inBlock) (Node.Bears Q) := by
  refine .bind .expectKeyword fun t ht => .ite (.fail_bind ht rfl) (.bind .expectName fun name hname => ?_)
  refine (draws_params fuel).bind fun params hparams => (hblock _).bind fun b hb => ?_
  refine .bind .expectKeyword fun _ _ => .bind (.term hname) fun nameTerm hn => .node ht ?_
  simpa using ⟨hn, hparams, hb⟩

/-- To look whether an argument follows draws nothing. -/
theorem draws_startsArgument (name t : Token) : Draws Q (startsArgument name t) fun _ => True := by
  unfold startsArgument
  split
  iterate 4 exact .pure trivial
  · exact .ite (.bind (.peek 2) fun _ _ => .pure trivial) (.pure trivial)
  iterate 2 exact .pure trivial

/-- A statement that starts with a name bears tokens that were offered. -/
theorem draws_nameStmt (hexpr : Draws Q expr (Node.Bears Q)) (fuel : Nat) {name : Token}
    (hname : Q name) : Draws Q (nameStmt expr fuel name) (Node.Bears Q) := by
  have hstmt : ∀ call : Node, call.Bears Q → Draws Q (node .callStmt name [call]) (Node.Bears Q) :=
    fun call hcall => .node hname (by simpa using hcall)
  refine .bind (.peek 1) fun ahead _ => .ite (draws_assignment hexpr) (.ite ?_ ?_)
  · exact .bind .skip fun _ _ => (draws_call hexpr fuel hname).bind hstmt
  refine (draws_startsArgument name ahead).bind fun _ _ => .ite ?_ ?_
  · refine .bind .skip fun _ _ => (draws_args hexpr fuel hname false).bind fun args hargs => ?_
    refine .bind (.term hname) fun callee hcallee => .bind (.node hname ?_) hstmt
    simpa using ⟨hcallee, hargs⟩
  · refine .bind .skip fun _ _ => .bind (.term hname) fun callee hcallee => ?_
    refine .bind (.node hname nofun) fun args hargs => .bind (.node hname ?_) hstmt
    simpa using ⟨hcallee, hargs⟩

end Statements

/-- A statement bears tokens that were offered. -/
theorem draws_stmt (fuel : Nat) (ctx : Context) : Draws Q (stmt fuel ctx) (Node.Bears Q) := by
  -- blocks are parsed with less fuel; the first token tells the statement
  induction fuel generalizing ctx with
  | zero => exact .tooDeep
  | succ fuel ih =>
    have hexpr : Draws Q (expr (fuel + 1)) (Node.Bears Q) := draws_binary _ _
    have hblock : ∀ (ctx : Context) stops,
        Draws Q (body (stmt fuel ctx) (fuel + 1) stops) (Node.Bears Q) :=
      fun ctx => draws_body (ih ctx) (fuel + 1)
    refine .bind (.peek 0) fun t ht => ?_
    split
    · exact .bind .skip fun _ _ => .bind (.term ht) fun l hl => .node ht (by simpa using hl)
    · refine .bind .skip fun _ _ => .bind .next fun op hop => .ite (.fail_bind hop rfl) ?_
      refine .bind (.term ht) fun g hg => .bind (.term hop) fun o ho => hexpr.bind fun e he => ?_
      exact .node ht (by simpa using ⟨hg, ho, he⟩)
    · split
      · exact draws_funcDef (hblock _) _ _
      · exact draws_ifStmt hexpr (hblock _) _
      · exact draws_unlessStmt hexpr (hblock _)
      · exact draws_whileLoop hexpr (hblock _)
      · exact draws_forLoop hexpr (hblock _) _
      · exact .bind .skip fun _ _ => .ite (.node ht nofun) (.fail ht rfl)
      · refine .bind .skip fun _ _ => .bind (.peek 0) fun _ _ => .ite (.node ht nofun) ?_
        exact hexpr.bind fun e he => .node ht (by simpa using he)
      · refine .bind .skip fun _ _ => .bind .next fun name hname => .ite (.fail_bind hname rfl) ?_
        exact .bind (.term hname) fun l hl => .node ht (by simpa using hl)
      · exact .ite (draws_nameStmt hexpr _ ht) (.fail ht rfl)
    · exact .fail ht rfl

/-- A program bears tokens that were offered. -/
theorem draws_program (fuel : Nat) : Draws Q (program fuel) (Node.Bears Q) := by
  refine .bind (.peek 0) fun t ht => .bind (P := Node.Bears Q) ?_ fun list hlist =>
    .node ht (by simpa using hlist)
  exact .bind (.peek 0) fun first hfirst =>
    (draws_stmts (draws_stmt fuel {}) [] fuel).bind fun ns hns => .node hfirst hns

end Parser

/-- Every node of the tree of a source bears a token of the source, or the end of input. -/
theorem token_of_parse {src : Source} {root : Node} (h : parse src = .ok root) :
    ∀ n ∈ root.nodesOnto [], n.token ∈ (lex src).tokens ∨ n.token.kind = .eof := by
  obtain ⟨c, hrun⟩ := exists_run_of_parse h
  have hstart : (Cursor.start (lex src)).Offers fun t => t ∈ (lex src).tokens ∨ t.kind = .eof :=
    ⟨fun t ht => .inl ht, fun t ht => .inr (kind_of_ending _ ht)⟩
  have hdraws := Parser.draws_program ((lex src).tokens.length + 1) _ hstart
  rw [show (Parser.program ((lex src).tokens.length + 1)).run (.start (lex src)) = .ok (root, c) from hrun] at hdraws
  exact hdraws.1.2

/-- Every error of the parser is at a token of the source, or at the end of input if that can be read to
it. All others are faults at which the source could not be read on. -/
theorem token_of_parse_error {src : Source} {e : SyntaxError} (h : parse src = .error e) :
    ((e.token ∈ (lex src).tokens ∨ (lex src).ending = .ok e.token) ∧ e.fault.isLexical = false) ∨
      (lex src).ending = .error e := by
  have hstart : (Cursor.start (lex src)).Offers fun t => t ∈ (lex src).tokens ∨ (lex src).ending = .ok t :=
    ⟨fun t ht => .inl ht, fun t ht => .inr ht⟩
  have hdraws := Parser.draws_program ((lex src).tokens.length + 1) _ hstart
  unfold parse parseFrom at h
  cases hrun : (Parser.program ((lex src).tokens.length + 1)).run (.start (lex src)) with
  | ok r =>
    rw [show (Parser.program ((Cursor.start (lex src)).rest.length + 1)).run _ = _ from hrun] at h
    cases h
  | error e' =>
    rw [show (Parser.program ((Cursor.start (lex src)).rest.length + 1)).run _ = _ from hrun] at h
    rw [hrun] at hdraws
    cases h
    exact hdraws

end ScriptPir

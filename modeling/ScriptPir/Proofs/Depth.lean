import ScriptPir.Proofs.StatementGrowth

/-!
# Parsing with more fuel

The parsers take fuel because they nest. `Parser.Deepens` says that a parser with more fuel does the same as
one with less, unless the latter runs out of it. The relation goes through all productions, because each one
spends its fuel on the same calls.

Main statement: `Parser.deepens_program`.

The proofs follow the text of the parsers: each rule of `Deepens` belongs to one combinator, and a
production is compared with itself clause by clause.

* `Deepens.bind`, `Deepens.ite`, … — the rules, one for each combinator;
* `deepens_binary`, `deepens_stmt` — the two recursions, by induction on the smaller fuel.
-/

namespace ScriptPir

namespace Parser

variable {α β : Type}

/-! ## Combinators

One rule for each combinator of the parser. Only `bind` has an argument in it: the second parsers are
compared from where the first ones stopped, which is the same place. -/

/-- Up to the end of input, a parser does the same as one with less fuel, unless that runs out of it. -/
def Deepens (p p' : Parser α) : Prop :=
  ∀ c e, c.ending = .ok e →
    match p.run c with
    | .ok (a, c₁) => p'.run c = .ok (a, c₁) ∧ c₁.ending = c.ending
    | .error fault => p'.run c = .error fault ∨ fault.fault = .tooDeep

namespace Deepens

variable {p p' : Parser α} {f f' : α → Parser β}

/-- A sequence does the same if both of its parts do. -/
theorem bind (hp : Deepens p p') (hf : ∀ a, Deepens (f a) (f' a)) : Deepens (p >>= f) (p' >>= f') := by
  intro c e hending
  have h := hp c e hending
  rw [StateT.run_bind, StateT.run_bind]
  cases hrun : p.run c with
  | error fault =>
    rw [hrun] at h
    refine h.imp_left fun hsame => ?_
    rw [hsame]
    rfl
  | ok r =>
    rw [hrun] at h
    rw [h.1, ← h.2]
    exact hf r.1 r.2 e (h.2.trans hending)

/-- Whatever the other parser does, this one runs out of fuel. -/
theorem tooDeep : Deepens (do Parser.fail (← Parser.peek) .tooDeep) p' := by
  intro c e hending
  rw [StateT.run_bind, run_peek]
  obtain ⟨t, hahead⟩ : ∃ t, c.ahead = .ok t := by
    unfold Cursor.ahead
    cases c.rest[0]? with
    | none => exact ⟨e, hending⟩
    | some t => exact ⟨t, rfl⟩
  rw [hahead]
  exact .inr rfl

/-- The choice does not depend on the fuel. -/
theorem ite {b : Prop} [Decidable b] {q q' : Parser α} (hp : Deepens p p') (hq : Deepens q q') :
    Deepens (if b then p else q) (if b then p' else q') := by
  split
  · exact hp
  · exact hq

theorem pure {a : α} : Deepens (Pure.pure a) (Pure.pure a) := fun _ _ _ => ⟨rfl, rfl⟩

theorem fail {t : Token} {fault : SyntaxFault} :
    Deepens (Parser.fail t fault : Parser α) (Parser.fail t fault) :=
  fun _ _ _ => .inl rfl

/-- What is looked at is the same. -/
theorem peek {i : Nat} : Deepens (peek i) (peek i) := by
  intro c e hending
  rw [run_peek]
  cases c.ahead i with
  | error fault => exact .inl rfl
  | ok t => exact ⟨rfl, rfl⟩

/-- The next token is the same. -/
theorem next : Deepens next next := by
  refine peek.bind fun t => ?_
  intro c e _
  exact ⟨rfl, rfl⟩

/-- What is made of a result is the same. -/
theorem map {g : α → β} (hp : Deepens p p) : Deepens (g <$> p) (g <$> p) := by
  rw [map_eq_pure_bind]
  exact hp.bind fun _ => pure

theorem skip : Deepens skip skip := next.bind fun _ => pure

theorem skipNewlines : Deepens skipNewlines skipNewlines := fun _ _ _ => ⟨rfl, rfl⟩

theorem fresh : Deepens fresh fresh := fun _ _ _ => ⟨rfl, rfl⟩

theorem node {kind : Kind} {t : Token} {children : List Node} :
    Deepens (node kind t children) (node kind t children) :=
  fresh.bind fun _ => pure

theorem term {t : Token} : Deepens (term t) (term t) := node

theorem expect {kind : TokenKind} {text : String} : Deepens (expect kind text) (expect kind text) :=
  next.bind fun _ => ite pure fail

theorem expectKeyword {word : String} : Deepens (expectKeyword word) (expectKeyword word) :=
  next.bind fun _ => ite pure fail

theorem expectName {what : String} : Deepens (expectName what) (expectName what) :=
  next.bind fun _ => ite pure fail

end Deepens

/-! ## Expressions

Each loop of a production spends one unit of fuel in each round, and hands the rest on; `expr` stands
for the expressions inside, which were compared before. -/

section Expressions

variable {expr expr' : Parser Node} (h : Deepens expr expr')

include h

/-- The loop over arguments, by induction on the smaller fuel. -/
theorem deepens_arguments (bracketed : Bool) {fuel fuel' : Nat} (hle : fuel ≤ fuel') :
    Deepens (arguments expr bracketed fuel) (arguments expr' bracketed fuel') := by
  -- all productions that nest spend one unit of fuel on both sides
  induction fuel generalizing fuel' with
  | zero => exact .tooDeep
  | succ fuel ih =>
    obtain ⟨fuel', rfl⟩ : ∃ m, fuel' = m + 1 := ⟨fuel' - 1, by omega⟩
    have hrest := @ih fuel' (by omega)
    have hnamed : ∀ t, Deepens (isNamed t) (isNamed t) := fun _ => .ite (.map .peek) .pure
    have hargument : ∀ t named, Deepens (argument expr t named) (argument expr' t named) := fun _ _ =>
      .ite (.bind .skip fun _ => .bind .skip fun _ => .bind .term fun _ => .bind h fun _ => .node)
        (.bind h fun _ => .node)
    rw [arguments_succ, arguments_succ]
    refine .bind .peek fun t => .bind (hnamed t) fun named => .bind (hargument t named) fun arg => ?_
    refine .bind .peek fun _ => .ite .pure (.bind ?_ fun _ => .bind hrest fun _ => .pure)
    exact .bind .skip fun _ => .ite .skipNewlines .pure

theorem deepens_args {fuel fuel' : Nat} (hle : fuel ≤ fuel') (t : Token) (bracketed : Bool) :
    Deepens (args expr fuel t bracketed) (args expr' fuel' t bracketed) :=
  .bind .fresh fun _ => .bind (deepens_arguments h bracketed hle) fun _ => .pure

/-- A call: its parenthesis, its arguments and what closes them. -/
theorem deepens_call {fuel fuel' : Nat} (hle : fuel ≤ fuel') (name : Token) :
    Deepens (call expr fuel name) (call expr' fuel' name) := by
  refine .bind .expect fun _ => .bind .skipNewlines fun _ => .bind .peek fun t => ?_
  -- behind the arguments no fuel is needed any more
  have hclose : ∀ args : Node, Deepens
      (do
        skipNewlines
        let _ ← Parser.expect .closing ")"
        let callee ← term name
        node .call name [callee, args])
      (do
        skipNewlines
        let _ ← Parser.expect .closing ")"
        let callee ← term name
        node .call name [callee, args]) :=
    fun _ => .bind .skipNewlines fun _ => .bind .expect fun _ => .bind .term fun _ => .node
  exact .ite (.bind .node hclose) (.bind (deepens_args h hle t true) hclose)

/-- An index. -/
theorem deepens_index (name : Token) : Deepens (index expr name) (index expr' name) := by
  refine .bind .term fun _ => .bind .node fun _ => .bind .expect fun _ => .bind .skipNewlines fun _ => ?_
  refine .bind h fun e => ?_
  cases e.nonIntegral? with
  | some bad =>
    refine .bind .fail fun _ => .bind .skipNewlines fun _ => .bind .expect fun _ => ?_
    exact .bind .term fun _ => .bind .term fun _ => .node
  | none =>
    refine .bind .skipNewlines fun _ => .bind .expect fun _ => ?_
    exact .bind .term fun _ => .bind .term fun _ => .node

/-- A primary, by the kind of its first token. -/
theorem deepens_primary {fuel fuel' : Nat} (hle : fuel ≤ fuel') :
    Deepens (primary expr fuel) (primary expr' fuel') := by
  -- constants, names and globals are one token, whatever the fuel is
  have hsingle : ∀ (kind : Kind) (t : Token), Deepens (do node kind t [← term t] : Parser Node)
      (do node kind t [← term t]) := fun _ _ => .bind .term fun _ => .node
  refine .bind .next fun t => ?_
  cases t.kind with
  | int | float | string =>
    cases literal t with
    | error e => exact .bind .fail fun _ => hsingle _ _
    | ok v => exact hsingle _ _
  | global => exact hsingle _ _
  | opening =>
    have hinside : Deepens
        (do
          skipNewlines
          let e ← expr
          skipNewlines
          let closing ← Parser.expect .closing ")"
          let openTerm ← term t
          let closeTerm ← term closing
          node .paren t [openTerm, e, closeTerm])
        (do
          skipNewlines
          let e ← expr'
          skipNewlines
          let closing ← Parser.expect .closing ")"
          let openTerm ← term t
          let closeTerm ← term closing
          node .paren t [openTerm, e, closeTerm]) :=
      .bind .skipNewlines fun _ => .bind h fun _ => .bind .skipNewlines fun _ => .bind .expect fun _ =>
        .bind .term fun _ => .bind .term fun _ => .node
    exact .ite (.bind .fail fun _ => hinside) hinside
  | ident =>
    refine .ite (hsingle _ _) (.ite .fail (.bind .peek fun ahead => ?_))
    exact .ite (deepens_call h hle t) (.ite (deepens_index h t) (hsingle _ _))
  | _ => exact .fail

end Expressions

/-- A unary expression, by induction on the smaller fuel. -/
theorem deepens_unary {operand operand' : Parser Node} (h : Deepens operand operand') {fuel fuel' : Nat}
    (hle : fuel ≤ fuel') : Deepens (unary operand fuel) (unary operand' fuel') := by
  induction fuel generalizing fuel' with
  | zero => exact .tooDeep
  | succ fuel ih =>
    obtain ⟨fuel', rfl⟩ : ∃ m, fuel' = m + 1 := ⟨fuel' - 1, by omega⟩
    refine .bind .peek fun _ => .ite ?_ h
    exact .bind .skip fun _ => .bind .term fun _ => .bind (ih (by omega)) fun _ => .node

/-- The climb over operators, by induction on the smaller fuel. -/
theorem deepens_climb {right right' : Nat → Parser Node} (h : ∀ limit, Deepens (right limit) (right' limit))
    (limit : Nat) {fuel fuel' : Nat} (hle : fuel ≤ fuel') (left : Node) :
    Deepens (climb right limit fuel left) (climb right' limit fuel' left) := by
  induction fuel generalizing fuel' left with
  | zero => exact .tooDeep
  | succ fuel ih =>
    obtain ⟨fuel', rfl⟩ : ∃ m, fuel' = m + 1 := ⟨fuel' - 1, by omega⟩
    refine .bind .peek fun t => ?_
    cases Operator.ofToken? t with
    | none => exact .pure
    | some op =>
      refine .ite .pure (.bind .skip fun _ => .bind .skipNewlines fun _ => .bind (h _) fun _ => ?_)
      exact .bind .term fun _ => .bind .node fun _ => ih (by omega) _

/-- A binary expression: its operands have one unit less. -/
theorem deepens_binary {fuel fuel' : Nat} (hle : fuel ≤ fuel') (limit : Nat) :
    Deepens (binary fuel limit) (binary fuel' limit) := by
  -- an operand of an operator is parsed with less fuel
  induction fuel generalizing fuel' limit with
  | zero => exact .tooDeep
  | succ fuel ih =>
    obtain ⟨fuel', rfl⟩ : ∃ m, fuel' = m + 1 := ⟨fuel' - 1, by omega⟩
    have hbinary : ∀ limit, Deepens (binary fuel limit) (binary fuel' limit) := fun limit => ih (by omega) limit
    exact .bind (deepens_unary (deepens_primary (hbinary _) hle) hle) fun left =>
      deepens_climb hbinary limit hle left

theorem deepens_expr {fuel fuel' : Nat} (hle : fuel ≤ fuel') : Deepens (expr fuel) (expr fuel') :=
  deepens_binary hle _

/-! ## Statements

In the order in which the productions call each other. `block` stands for the statements inside a
construct; the recursion over nested statements is closed in `deepens_stmt` only. -/

/-- The loop over statements, by induction on the smaller fuel. -/
theorem deepens_stmts {stmt stmt' : Parser Node} (h : Deepens stmt stmt') (stops : List String)
    {fuel fuel' : Nat} (hle : fuel ≤ fuel') : Deepens (stmts stmt stops fuel) (stmts stmt' stops fuel') := by
  induction fuel generalizing fuel' with
  | zero => exact .tooDeep
  | succ fuel ih =>
    obtain ⟨fuel', rfl⟩ : ∃ m, fuel' = m + 1 := ⟨fuel' - 1, by omega⟩
    have hrest := @ih fuel' (by omega)
    have hlist : ∀ s : Node, Deepens (do return s :: (← stmts stmt stops fuel))
        (do return s :: (← stmts stmt' stops fuel')) := fun _ => .bind hrest fun _ => .pure
    refine .bind .peek fun _ => .ite (.bind .skip fun _ => hrest) (.ite .pure (.bind h fun s => ?_))
    exact .bind .peek fun _ => .ite (.bind .skip fun _ => hlist s) (.ite (.bind .fail fun _ => hlist s) (hlist s))

theorem deepens_stmtList {stmt stmt' : Parser Node} (h : Deepens stmt stmt') {fuel fuel' : Nat}
    (hle : fuel ≤ fuel') (stops : List String) :
    Deepens (stmtList stmt fuel stops) (stmtList stmt' fuel' stops) :=
  .bind .peek fun _ => .bind (deepens_stmts h stops hle) fun _ => .node

theorem deepens_body {stmt stmt' : Parser Node} (h : Deepens stmt stmt') {fuel fuel' : Nat}
    (hle : fuel ≤ fuel') (stops : List String) : Deepens (body stmt fuel stops) (body stmt' fuel' stops) :=
  .bind .peek fun _ => .bind (deepens_stmtList h hle stops) fun _ => .node

section Constructs

variable {expr expr' : Parser Node} {block block' : List String → Parser Node}
  (h : Deepens expr expr') (hblock : ∀ stops, Deepens (block stops) (block' stops))

include h

theorem deepens_condition (word : String) : Deepens (condition expr word) (condition expr' word) :=
  .bind .peek fun _ => .bind h fun _ => .bind .peek fun _ => .ite (.bind .skip fun _ => .node)
    (.ite (.bind .fail fun _ => .node) .node)

/-- What stands behind the operator of an assignment: brackets, a global or an expression. -/
theorem deepens_assigned (name op t : Token) :
    Deepens (assigned expr name op t) (assigned expr' name op t) := by
  have harray : Deepens
      (do
        let nameTerm ← term name
        let opTerm ← term op
        node .arrayInit name [nameTerm, opTerm])
      (do
        let nameTerm ← term name
        let opTerm ← term op
        node .arrayInit name [nameTerm, opTerm]) :=
    .bind .term fun _ => .bind .term fun _ => .node
  have hvalue : Deepens
      (do
        skipNewlines
        let nameTerm ← term name
        let opTerm ← term op
        let e ← expr
        node .assign name [nameTerm, opTerm, e])
      (do
        skipNewlines
        let nameTerm ← term name
        let opTerm ← term op
        let e ← expr'
        node .assign name [nameTerm, opTerm, e]) :=
    .bind .skipNewlines fun _ => .bind .term fun _ => .bind .term fun _ => .bind h fun _ => .node
  -- the global behind the operator is looked for only where one may stand
  unfold assigned
  refine .ite (.bind .skip fun _ => .bind .next fun closing => ?_) ?_
  · exact .ite (.bind .fail fun _ => harray) harray
  · refine .ite (.bind (.map .peek) fun fromGlobal => ?_) (.bind .pure fun fromGlobal => ?_)
    · refine .ite (.bind .skip fun _ => .bind .term fun _ => .bind .term fun _ => ?_) hvalue
      exact .bind .term fun _ => .node
    · refine .ite (.bind .skip fun _ => .bind .term fun _ => .bind .term fun _ => ?_) hvalue
      exact .bind .term fun _ => .node

/-- An assignment to a variable or to an element. -/
theorem deepens_assignment : Deepens (assignment expr) (assignment expr') := by
  -- the production as it is read: the name and what follows it decide between the two forms
  rw [assignment_eq, assignment_eq]
  refine .bind .next fun name => .bind .peek fun t => .ite ?_ ?_
  · have hvalue : ∀ target op : _, Deepens
        (do
          let opTerm ← term op
          let e ← expr
          node .indexAssign name [target, opTerm, e])
        (do
          let opTerm ← term op
          let e ← expr'
          node .indexAssign name [target, opTerm, e]) :=
      fun _ _ => .bind .term fun _ => .bind h fun _ => .node
    refine .bind (deepens_index h name) fun target => .bind .next fun op => ?_
    exact .ite (.bind .fail fun _ => hvalue target op) (hvalue target op)
  · have hvalue : ∀ op : Token, Deepens
        (do
          let t ← if op.text = "=" then peek else pure op
          assigned expr name op t)
        (do
          let t ← if op.text = "=" then peek else pure op
          assigned expr' name op t) :=
      fun op => .ite (.bind .peek (deepens_assigned h name op)) (.bind .pure (deepens_assigned h name op))
    exact .bind .next fun op => .ite (.bind .fail fun _ => hvalue op) (hvalue op)

/-- The assignments in a clause of a header, by induction on the smaller fuel. -/
theorem deepens_forAssignments {fuel fuel' : Nat} (hle : fuel ≤ fuel') :
    Deepens (forAssignments expr fuel) (forAssignments expr' fuel') := by
  induction fuel generalizing fuel' with
  | zero => exact .tooDeep
  | succ fuel ih =>
    obtain ⟨fuel', rfl⟩ : ∃ m, fuel' = m + 1 := ⟨fuel' - 1, by omega⟩
    -- the rest is the same in both branches, so it is stated once
    have hgo : Deepens
        (do
          let a ← assignment expr
          if (← peek).kind ≠ .comma then return [a]
          skip
          return a :: (← forAssignments expr fuel))
        (do
          let a ← assignment expr'
          if (← peek).kind ≠ .comma then return [a]
          skip
          return a :: (← forAssignments expr' fuel')) :=
      .bind (deepens_assignment h) fun _ => .bind .peek fun _ => .ite .pure (.bind .skip fun _ =>
        .bind (ih (by omega)) fun _ => .pure)
    refine .bind .peek fun t => .ite (.bind ?_ fun _ => ?_) (.bind .pure fun _ => ?_)
    · exact .map .peek
    · exact .ite (.bind .fail fun _ => hgo) hgo
    · exact .ite (.bind .fail fun _ => hgo) hgo

theorem deepens_forClause {fuel fuel' : Nat} (hle : fuel ≤ fuel') (kind : Kind) (close : String) :
    Deepens (forClause expr fuel kind close) (forClause expr' fuel' kind close) :=
  .bind .peek fun _ => .bind .fresh fun _ => .ite .pure (.bind (deepens_forAssignments h hle) fun _ => .pure)

include hblock

omit h in
theorem deepens_elseArm : Deepens (elseArm block) (elseArm block') :=
  .bind .peek fun _ => .ite (.bind .skip fun _ => .bind (hblock _) fun _ => .bind .node fun _ => .pure) .pure

/-- The further arms of a branch, by induction on the smaller fuel. -/
theorem deepens_elsifArms {fuel fuel' : Nat} (hle : fuel ≤ fuel') :
    Deepens (elsifArms expr block fuel) (elsifArms expr' block' fuel') := by
  induction fuel generalizing fuel' with
  | zero => exact .tooDeep
  | succ fuel ih =>
    obtain ⟨fuel', rfl⟩ : ∃ m, fuel' = m + 1 := ⟨fuel' - 1, by omega⟩
    refine .bind .peek fun _ => .ite (.bind .skip fun _ => ?_) .pure
    exact .bind (deepens_condition h _) fun _ => .bind (hblock _) fun _ => .bind .node fun _ =>
      .bind (ih (by omega)) fun _ => .pure

/-- A branch. -/
theorem deepens_ifStmt {fuel fuel' : Nat} (hle : fuel ≤ fuel') :
    Deepens (ifStmt expr block fuel) (ifStmt expr' block' fuel') :=
  .bind .expectKeyword fun _ => .bind (deepens_condition h _) fun _ => .bind (hblock _) fun _ =>
    .bind (deepens_elsifArms h hblock hle) fun _ => .bind (deepens_elseArm hblock) fun _ =>
      .bind .expectKeyword fun _ => .node

theorem deepens_unlessStmt : Deepens (unlessStmt expr block) (unlessStmt expr' block') :=
  .bind .expectKeyword fun _ => .bind (deepens_condition h _) fun _ => .bind (hblock _) fun _ =>
    .bind (deepens_elseArm hblock) fun _ => .bind .expectKeyword fun _ => .node

theorem deepens_whileLoop : Deepens (whileLoop expr block) (whileLoop expr' block') :=
  .bind .expectKeyword fun _ => .bind (deepens_condition h _) fun _ => .bind (hblock _) fun _ =>
    .bind .expectKeyword fun _ => .node

/-- A loop with a header. -/
theorem deepens_forLoop {fuel fuel' : Nat} (hle : fuel ≤ fuel') :
    Deepens (forLoop expr block fuel) (forLoop expr' block' fuel') := by
  refine .bind .expectKeyword fun _ => .bind .expect fun _ => .bind (deepens_forClause h hle _ _) fun _ => ?_
  refine .bind .expect fun _ => .bind .peek fun _ => .bind h fun _ => .bind .node fun _ => ?_
  refine .bind .expect fun _ => .bind (deepens_forClause h hle _ _) fun _ => .bind .expect fun _ => ?_
  exact .bind (hblock _) fun _ => .bind .expectKeyword fun _ => .node

end Constructs

/-- The names of parameters, by induction on the smaller fuel. -/
theorem deepens_paramNames {fuel fuel' : Nat} (hle : fuel ≤ fuel') :
    Deepens (paramNames fuel) (paramNames fuel') := by
  induction fuel generalizing fuel' with
  | zero => exact .tooDeep
  | succ fuel ih =>
    obtain ⟨fuel', rfl⟩ : ∃ m, fuel' = m + 1 := ⟨fuel' - 1, by omega⟩
    refine .bind .expectName fun _ => .bind .term fun _ => .bind .peek fun _ => .ite .pure ?_
    exact .bind .skip fun _ => .bind .skipNewlines fun _ => .bind (ih (by omega)) fun _ => .pure

/-- The parameters of a function, in brackets, without, or missing. -/
theorem deepens_params {fuel fuel' : Nat} (hle : fuel ≤ fuel') : Deepens (params fuel) (params fuel') := by
  refine .bind .peek fun t => .bind .fresh fun id => ?_
  have hclose : ∀ names : List Node, Deepens
      (do
        skipNewlines
        let _ ← Parser.expect .closing ")"
        return Node.mk id .params t names)
      (do
        skipNewlines
        let _ ← Parser.expect .closing ")"
        return Node.mk id .params t names) :=
    fun _ => .bind .skipNewlines fun _ => .bind .expect fun _ => .pure
  refine .ite (.bind .skip fun _ => .bind .skipNewlines fun _ => .bind .peek fun _ => ?_)
    (.ite (.bind (deepens_paramNames hle) fun _ => .pure) .pure)
  exact .ite (.bind (deepens_paramNames hle) hclose) (.bind .pure hclose)

/-- The definition of a function. -/
theorem deepens_funcDef {block block' : List String → Parser Node}
    (hblock : ∀ stops, Deepens (block stops) (block' stops)) {fuel fuel' : Nat} (hle : fuel ≤ fuel')
    (inBlock : Bool) : Deepens (funcDef block fuel inBlock) (funcDef block' fuel' inBlock) := by
  -- behind the check that it is at the top
  have hrest : ∀ t : Token, Deepens
      (do
        let name ← expectName "function name"
        let params ← params fuel
        let b ← block ["end"]
        let _ ← expectKeyword "end"
        let nameTerm ← term name
        node .funcDef t [nameTerm, params, b])
      (do
        let name ← expectName "function name"
        let params ← params fuel'
        let b ← block' ["end"]
        let _ ← expectKeyword "end"
        let nameTerm ← term name
        node .funcDef t [nameTerm, params, b]) := fun _ =>
    .bind .expectName fun _ => .bind (deepens_params hle) fun _ => .bind (hblock _) fun _ =>
      .bind .expectKeyword fun _ => .bind .term fun _ => .node
  exact .bind .expectKeyword fun t => .ite (.bind .fail fun _ => hrest t) (hrest t)

/-- Whether an argument follows is found out without fuel. -/
theorem deepens_startsArgument (name t : Token) : Deepens (startsArgument name t) (startsArgument name t) := by
  unfold startsArgument
  cases t.kind with
  | op => exact .ite (.bind .peek fun _ => .pure) .pure
  | _ => exact .pure

/-- A statement that begins with a name: an assignment or a call. -/
theorem deepens_nameStmt {expr expr' : Parser Node} (h : Deepens expr expr') {fuel fuel' : Nat}
    (hle : fuel ≤ fuel') (name : Token) : Deepens (nameStmt expr fuel name) (nameStmt expr' fuel' name) := by
  refine .bind .peek fun ahead => .ite (deepens_assignment h) (.ite ?_ ?_)
  · exact .bind .skip fun _ => .bind (deepens_call h hle name) fun _ => .node
  · refine .bind (deepens_startsArgument name ahead) fun _ => .ite (.bind .skip fun _ => ?_)
      (.bind .skip fun _ => ?_)
    · exact .bind (deepens_args h hle name false) fun _ => .bind .term fun _ => .bind .node fun _ => .node
    · exact .bind .term fun _ => .bind .node fun _ => .bind .node fun _ => .node

/-- A statement, by induction on the smaller fuel: the statements inside have one unit less. -/
theorem deepens_stmt {fuel fuel' : Nat} (hle : fuel ≤ fuel') (ctx : Context) :
    Deepens (stmt fuel ctx) (stmt fuel' ctx) := by
  induction fuel generalizing fuel' ctx with
  | zero => exact .tooDeep
  | succ fuel ih =>
    obtain ⟨fuel', rfl⟩ : ∃ m, fuel' = m + 1 := ⟨fuel' - 1, by omega⟩
    have hexpr := deepens_expr hle
    -- what stands inside a construct is a body of statements that were compared before
    have hblock : ∀ (ctx : Context) stops, Deepens (body (stmt fuel ctx) (fuel + 1) stops)
        (body (stmt fuel' ctx) (fuel' + 1) stops) := fun ctx => deepens_body (ih (by omega) ctx) hle
    refine .bind .peek fun t => ?_
    cases t.kind with
    | pir => exact .bind .skip fun _ => .bind .term fun _ => .node
    | global =>
      have hvalue : ∀ op : Token, Deepens
          (do
            let global ← term t
            let opTerm ← term op
            let e ← expr (fuel + 1)
            node .globalSet t [global, opTerm, e])
          (do
            let global ← term t
            let opTerm ← term op
            let e ← expr (fuel' + 1)
            node .globalSet t [global, opTerm, e]) :=
        fun _ => .bind .term fun _ => .bind .term fun _ => .bind hexpr fun _ => .node
      exact .bind .skip fun _ => .bind .next fun op => .ite (.bind .fail fun _ => hvalue op) (hvalue op)
    | ident =>
      dsimp only
      split
      · exact deepens_funcDef (hblock _) hle ctx.inBlock
      · exact deepens_ifStmt hexpr (hblock _) hle
      · exact deepens_unlessStmt hexpr (hblock _)
      · exact deepens_whileLoop hexpr (hblock _)
      · exact deepens_forLoop hexpr (hblock _) hle
      · exact .bind .skip fun _ => .ite .node .fail
      · exact .bind .skip fun _ => .bind .peek fun _ => .ite .node (.bind hexpr fun _ => .node)
      · refine .bind .skip fun _ => .bind .next fun name => ?_
        exact .ite (.bind .fail fun _ => .bind .term fun _ => .node) (.bind .term fun _ => .node)
      · exact .ite (deepens_nameStmt hexpr hle t) .fail
    | _ => exact .fail

/-- A program is parsed with more fuel as with less, unless there is too little of it. -/
theorem deepens_program {fuel fuel' : Nat} (hle : fuel ≤ fuel') : Deepens (program fuel) (program fuel') :=
  .bind .peek fun _ => .bind (deepens_stmtList (deepens_stmt hle {}) hle []) fun _ => .node

end Parser

end ScriptPir

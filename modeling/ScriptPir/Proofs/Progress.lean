import ScriptPir.Proofs.Advancement
import ScriptPir.Proofs.Consumption
import ScriptPir.Proofs.Depth

/-!
# The front end makes progress

The productions of statements advance as those of expressions do: each construct takes its first token before
it parses what is inside it, so the tokens bound how deep a program nests. At the end of the tokens, each loop
stops.

Main statement: `front_end_progresses`.

* `advances_stmt` — a statement that succeeds has taken a token, and it never runs out of fuel if there
  is as much fuel as tokens;
* `loopsStop_of_atEnd` — where no token is left, every loop of the parser comes to its end at once, with
  a result or an error;
* `productions` — all productions of the parser in one statement.

Fuel is a matter of the model and not of the language. These theorems say that it makes no difference:
it is never used up, and more of it gives the same tree.
-/

namespace ScriptPir

/-- A cursor behind the last token, where the token `e` for the end of input is looked at. -/
structure Cursor.AtEnd (c : Cursor) (e : Token) : Prop where
  rest_eq : c.rest = []
  ending_eq : c.ending = .ok e
  kind_eq : e.kind = .eof

/-- Behind the last token there is no fault of reading. -/
theorem Cursor.AtEnd.sealed {c : Cursor} {e : Token} (h : c.AtEnd e) : c.Sealed := by
  refine ⟨fun t ht => ?_, fun error herror => ?_⟩
  · rw [h.ending_eq] at ht
    cases ht
    exact h.kind_eq
  · rw [h.ending_eq] at herror
    cases herror

namespace Parser

variable {P : List Token → Prop} {N : Nat}

/-! ## Blocks

`Advances P n k p` bounds the fuel that is needed by `n` and the tokens that are taken by `k`. A
statement takes a token at least, a block of them may be empty. -/

theorem kind_of_isKeyword {t : Token} {word : String} (h : t.isKeyword word = true) : t.kind ≠ .eof :=
  fun he => not_isKeyword_of_eof he word h

/-- Statements need no more fuel than there are tokens, if one statement needs no more. -/
theorem advances_stmts {stmt : Parser Node} (h : Advances Any N 1 stmt) (stops : List String) {fuel : Nat}
    (hN : N ≤ fuel) : Advances P N 0 (stmts stmt stops fuel) := by
  -- on the fuel: a separator or a statement is taken before the list goes on
  induction fuel generalizing N P with
  | zero =>
    obtain rfl := Nat.le_zero.mp hN
    exact .tooDeep
  | succ fuel ih =>
    have hrest : Advances Any (N - 1) 0 (stmts stmt stops fuel) := ih (h.weaken (Nat.sub_le N 1)) (by omega)
    have hlist : ∀ s : Node, Advances Any (N - 1) 0 (do return s :: (← stmts stmt stops fuel)) :=
      fun _ => .bind hrest fun _ => .pure
    refine .peek_bind fun t => .ite (fun hsemi => ?_) fun _ => .ite (fun _ => .pure) fun _ => ?_
    · have htaken := ne_nil_of_ahead (P := P) (t := t) (by rw [hsemi]; decide)
      exact .weak (.bind_taken (.skip_of_ne htaken) fun _ => hrest)
    · refine .weak (.bind_taken h.any fun s => .peek_bind fun after => ?_)
      refine .ite (fun _ => .bind .skip fun _ => hlist s) fun _ => ?_
      exact .ite (fun _ => .fail_bind nofun) fun _ => (hlist s).any

theorem advances_stmtList {stmt : Parser Node} (h : Advances Any N 1 stmt) {fuel : Nat} (hN : N ≤ fuel)
    (stops : List String) : Advances P N 0 (stmtList stmt fuel stops) :=
  .peek_bind fun _ => .bind (advances_stmts h stops hN) fun _ => .node

/-- The body of a construct advances as the statements in it do. -/
theorem advances_body {stmt : Parser Node} (h : Advances Any N 1 stmt) {fuel : Nat} (hN : N ≤ fuel)
    (stops : List String) : Advances P N 0 (body stmt fuel stops) :=
  .peek_bind fun _ => .bind (advances_stmtList h hN stops) fun _ => .node

/-! ## Branches and loops

Each construct begins with a keyword, which is taken before anything inside is parsed. -/

section Constructs

variable {expr : Parser Node} {block : List String → Parser Node} (hexpr : Advances Any N 1 expr)
  (hblock : ∀ stops, Advances Any N 0 (block stops))

theorem advances_end {n : Nat} {kind : Kind} {t : Token} {children : List Node} :
    Advances P n 0 (do let _ ← expectKeyword "end"; node kind t children) :=
  .bind (.weak .expectKeyword) fun _ => .node

include hexpr

theorem advances_condition (word : String) : Advances P N 1 (condition expr word) := by
  refine .peek_bind fun t => .bind_taken hexpr.any fun e => .peek_bind fun after => ?_
  exact .ite (fun _ => .bind .skip fun _ => .node) fun _ => .ite (fun _ => .fail_bind nofun) fun _ => .node

include hblock

omit hexpr in
theorem advances_elseArm : Advances P N 0 (elseArm block) := by
  refine .peek_bind fun t => .ite (fun _ => ?_) fun _ => .pure
  exact .bind .skip fun _ => .bind (hblock _) fun _ => .bind .node fun _ => .pure

/-- Further arms may be missing, and take a keyword each if they are there. -/
theorem advances_elsifArms {fuel : Nat} (hN : N ≤ fuel) : Advances P N 0 (elsifArms expr block fuel) := by
  induction fuel generalizing N P with
  | zero =>
    obtain rfl := Nat.le_zero.mp hN
    exact .tooDeep
  | succ fuel ih =>
    have hcondition : Advances Any (N - 1) 1 (condition expr "then") :=
      advances_condition (hexpr.weaken (Nat.sub_le N 1)) _
    have hbody : ∀ stops, Advances Any (N - 1) 0 (block stops) := fun stops => (hblock stops).weaken (Nat.sub_le N 1)
    have hrest : Advances Any (N - 1) 0 (elsifArms expr block fuel) :=
      ih (hexpr.weaken (Nat.sub_le N 1)) hbody (by omega)
    refine .peek_bind fun t => .ite (fun hkeyword => ?_) fun _ => .pure
    -- the keyword is taken first, so one less is enough for all that follows
    refine .weak (.bind_taken (.skip_of_ne (ne_nil_of_ahead (kind_of_isKeyword hkeyword))) fun _ => ?_)
    refine .bind hcondition.weak fun _ => .bind (hbody _) fun _ => .bind .node fun _ => ?_
    exact .bind hrest fun _ => .pure

/-- A branch takes its keyword before its parts. -/
theorem advances_ifStmt {fuel : Nat} (hN : N ≤ fuel) : Advances P (N + 1) 1 (ifStmt expr block fuel) := by
  refine .bind_taken .expectKeyword fun _ => .bind (advances_condition hexpr _).weak fun _ => ?_
  refine .bind (hblock _) fun _ => .bind (advances_elsifArms hexpr hblock hN) fun _ => ?_
  exact .bind (advances_elseArm hblock) fun _ => advances_end

/-- A negated branch takes its keyword before its parts. -/
theorem advances_unlessStmt : Advances P (N + 1) 1 (unlessStmt expr block) := by
  refine .bind_taken .expectKeyword fun _ => .bind (advances_condition hexpr _).weak fun _ => ?_
  exact .bind (hblock _) fun _ => .bind (advances_elseArm hblock) fun _ => advances_end

theorem advances_whileLoop : Advances P (N + 1) 1 (whileLoop expr block) := by
  refine .bind_taken .expectKeyword fun _ => .bind (advances_condition hexpr _).weak fun _ => ?_
  exact .bind (hblock _) fun _ => advances_end

end Constructs

/-! ## Assignments

Which form an assignment has is told by looking ahead. The name is taken in all of them, before the
value. -/

section Assignments

variable {expr : Parser Node} (hexpr : Advances Any N 1 expr)

include hexpr

/-- What stands behind the operator of an assignment may be looked at first. -/
theorem advances_assigned (name op t : Token) : Advances P N 0 (assigned expr name op t) := by
  -- whether the global is the whole value is known by now, and both cases advance
  have hvalue : ∀ fromGlobal : Bool, Advances Any N 0
      (if fromGlobal then do
        skip
        let nameTerm ← term name
        let opTerm ← term op
        let global ← term t
        node .globalGet name [nameTerm, opTerm, global]
      else do
        skipNewlines
        let nameTerm ← term name
        let opTerm ← term op
        let e ← expr
        node .assign name [nameTerm, opTerm, e]) := by
    intro fromGlobal
    refine .ite (fun _ => .bind .skip fun _ => .bind .term fun _ => .bind .term fun _ => ?_) fun _ => ?_
    · exact .bind .term fun _ => .node
    · exact .bind .skipNewlines fun _ => .bind .term fun _ => .bind .term fun _ =>
        .bind hexpr.weak fun _ => .node
  unfold assigned
  refine .ite (fun _ => .bind .skip fun _ => .bind .next fun closing => ?_) fun _ => ?_
  · refine .ite (fun _ => .fail_bind nofun) fun _ => ?_
    exact .bind .term fun _ => .bind .term fun _ => .node
  · refine .ite (fun _ => ?_) fun _ => .bind .pure hvalue
    refine .bind ?_ hvalue
    rw [map_eq_pure_bind]
    exact .peek_bind fun _ => .pure

/-- An assignment takes at least its name. -/
theorem advances_assignment : Advances P N 1 (assignment expr) := by
  rw [assignment_eq]
  -- the name is taken first, so one token less is left for the rest
  have hexpr' : Advances Any (N - 1) 1 expr := hexpr.weaken (Nat.sub_le N 1)
  refine .next_bind (fun name => .peek_bind fun t => .ite (fun _ => ?_) fun _ => ?_) fun e he => ?_
  · refine .bind (advances_index hexpr' name).weak fun target => .bind .next fun op => ?_
    refine .ite (fun _ => .fail_bind nofun) fun _ => ?_
    exact .bind .term fun _ => .bind hexpr'.weak fun _ => .node
  · refine .bind .next fun op => .ite (fun _ => .fail_bind nofun) fun _ => ?_
    refine .ite (fun _ => .peek_bind fun t => ?_) fun _ => .bind .pure fun t => ?_
    · exact advances_assigned hexpr' name op t
    · exact advances_assigned hexpr' name op t
  · -- the end of input is neither a bracket nor an operator
    refine .peek_bind_end fun t ht => ?_
    rw [if_neg (by simp [Token.isOpening, ht])]
    refine .next_bind_end fun op hop => ?_
    rw [if_pos (by simp [Token.isAssign, hop])]
    exact .fail_bind nofun

/-- The assignments in a header take at least one name, and each further one its comma. -/
theorem advances_forAssignments {fuel : Nat} (hN : N ≤ fuel) : Advances P N 1 (forAssignments expr fuel) := by
  induction fuel generalizing N P with
  | zero =>
    obtain rfl := Nat.le_zero.mp hN
    exact .tooDeep
  | succ fuel ih =>
    have hrest : Advances Any (N - 1) 1 (forAssignments expr fuel) :=
      ih (hexpr.weaken (Nat.sub_le N 1)) (by omega)
    -- once it is clear that an assignment stands here, it is taken before the rest
    have hgo : Advances Any N 1 (do
        let a ← assignment expr
        if (← peek).kind ≠ .comma then return [a]
        skip
        return a :: (← forAssignments expr fuel)) := by
      refine .bind_taken (advances_assignment hexpr) fun a => .peek_bind fun after => ?_
      exact .ite (fun _ => .pure) fun _ => .bind .skip fun _ => .bind hrest.weak fun _ => .pure
    have hstart : ∀ (t : Token) (starts : Bool), Advances Any N 1 (do
        if !starts then fail t .forHeader
        let a ← assignment expr
        if (← peek).kind ≠ .comma then return [a]
        skip
        return a :: (← forAssignments expr fuel)) :=
      fun _ _ => .ite (fun _ => .fail_bind nofun) fun _ => hgo
    refine .peek_bind fun t => .ite (fun _ => ?_) fun _ => .bind .pure (hstart t)
    refine .bind ?_ (hstart t)
    rw [map_eq_pure_bind]
    exact .peek_bind fun _ => .pure

theorem advances_forClause {fuel : Nat} (hN : N ≤ fuel) (kind : Kind) (close : String) :
    Advances P N 0 (forClause expr fuel kind close) := by
  refine .peek_bind fun t => .bind .fresh fun id => .ite (fun _ => .pure) fun _ => ?_
  exact .bind (advances_forAssignments hexpr hN).weak fun _ => .pure

/-- A loop with a header takes its keyword before its parts. -/
theorem advances_forLoop {block : List String → Parser Node} (hblock : ∀ stops, Advances Any N 0 (block stops))
    {fuel : Nat} (hN : N ≤ fuel) : Advances P (N + 1) 1 (forLoop expr block fuel) := by
  refine .bind_taken .expectKeyword fun _ => .bind (.weak (.expect (by decide))) fun _ => ?_
  refine .bind (advances_forClause hexpr hN _ _) fun _ => .bind (.weak (.expect (by decide))) fun _ => ?_
  refine .peek_bind fun _ => .bind hexpr.any.weak fun _ => .bind .node fun _ => ?_
  refine .bind (.weak (.expect (by decide))) fun _ => .bind (advances_forClause hexpr hN _ _) fun _ => ?_
  exact .bind (.weak (.expect (by decide))) fun _ => .bind (hblock _) fun _ => advances_end

end Assignments

/-! ## Functions

Parameters may be missing, with brackets and without. -/

/-- Parameters take at least one name, and each further one its comma. -/
theorem advances_paramNames {fuel : Nat} (hN : N ≤ fuel) : Advances P N 1 (paramNames fuel) := by
  induction fuel generalizing N P with
  | zero =>
    obtain rfl := Nat.le_zero.mp hN
    exact .tooDeep
  | succ fuel ih =>
    have hrest : Advances Any (N - 1) 1 (paramNames fuel) := ih (by omega)
    refine .bind_taken .expectName fun _ => .bind .term fun _ => .peek_bind fun _ => ?_
    refine .ite (fun _ => .pure) fun _ => ?_
    exact .bind .skip fun _ => .bind .skipNewlines fun _ => .bind hrest.weak fun _ => .pure

/-- The parameters of a function may be missing. -/
theorem advances_params {fuel : Nat} (hN : N ≤ fuel) : Advances P N 0 (params fuel) := by
  refine .peek_bind fun t => .bind .fresh fun id => ?_
  -- the closing bracket is taken in all cases with an opening one
  have hclose : ∀ names : List Node, Advances Any N 0 (do
      skipNewlines
      let _ ← Parser.expect .closing ")"
      return Node.mk id .params t names) :=
    fun _ => .bind .skipNewlines fun _ => .bind (.weak (.expect (by decide))) fun _ => .pure
  refine .ite (fun _ => .bind .skip fun _ => .bind .skipNewlines fun _ => .peek_bind fun after => ?_) fun _ => ?_
  · refine .ite (fun _ => .bind (advances_paramNames hN).weak hclose) fun _ => ?_
    exact .bind .pure hclose
  · exact .ite (fun _ => .bind (advances_paramNames hN).weak fun _ => .pure) fun _ => .pure

/-- A function takes its keyword before its parts. -/
theorem advances_funcDef {block : List String → Parser Node} (hblock : ∀ stops, Advances Any N 0 (block stops))
    {fuel : Nat} (hN : N ≤ fuel) (inBlock : Bool) : Advances P (N + 1) 1 (funcDef block fuel inBlock) := by
  refine .bind_taken .expectKeyword fun t => .ite (fun _ => .fail_bind nofun) fun _ => ?_
  refine .bind (.weak .expectName) fun name => .bind (advances_params hN) fun params => ?_
  refine .bind (hblock _) fun b => .bind (.weak .expectKeyword) fun _ => ?_
  exact .bind .term fun _ => .node

/-! ## Statements

A statement that starts with a name is told apart by up to two tokens behind it. Whatever it turns
out to be, the name is taken. -/

section Names

variable {expr : Parser Node} (hexpr : Advances Any N 1 expr)

include hexpr

/-- A call without brackets takes its name. -/
theorem advances_command {fuel : Nat} (hN : N ≤ fuel) (name : Token) (argued : Bool)
    (hP : ∀ l, P l → l ≠ []) : Advances P N 1 (command expr fuel name argued) := by
  have hexpr' : Advances Any (N - 1) 1 expr := hexpr.weaken (Nat.sub_le N 1)
  refine .ite (fun _ => .bind_taken (.skip_of_ne hP) fun _ => ?_) fun _ => .bind_taken (.skip_of_ne hP) fun _ => ?_
  · refine .bind (advances_args hexpr' (by omega) name false).weak fun args => ?_
    exact .bind .term fun _ => .bind .node fun _ => .node
  · exact .bind .term fun _ => .bind .node fun _ => .bind .node fun _ => .node

/-- A statement that starts with a name takes at least the name. -/
theorem advances_nameStmt {fuel : Nat} (hN : N ≤ fuel) (name : Token) (hP : ∀ l, P l → l ≠ []) :
    Advances P N 1 (nameStmt expr fuel name) := by
  have hexpr' : Advances Any (N - 1) 1 expr := hexpr.weaken (Nat.sub_le N 1)
  rw [nameStmt_eq]
  refine .peek_bind fun ahead => ?_
  have hahead : ∀ l, Ahead P 1 ahead l → l ≠ [] := fun l hl => hP l hl.1
  refine .ite (fun _ => advances_assignment hexpr) fun _ => .ite (fun _ => ?_) fun _ => ?_
  · refine .bind_taken (.skip_of_ne hahead) fun _ => ?_
    exact .bind (advances_call hexpr' (by omega) name).weak fun _ => .node
  · -- only behind a sign one more token is looked at
    by_cases hsign : ahead.kind = .op ∧ (ahead.text = "-" ∨ ahead.text = "!")
    · rw [startsArgument_of_sign name hsign.1 hsign.2, bind_assoc]
      refine .peek_bind fun after => ?_
      rw [pure_bind]
      exact advances_command hexpr hN name _ fun l hl => hahead l hl.1
    · obtain ⟨argued, hargued⟩ := startsArgument_of_not_sign name hsign
      rw [hargued, pure_bind]
      exact advances_command hexpr hN name argued hahead

end Names

/-- A statement takes a token at least, in every context. -/
theorem advances_stmt {P : List Token → Prop} (fuel : Nat) (ctx : Context) :
    Advances P fuel 1 (stmt fuel ctx) := by
  -- a statement takes its first token before a block in it is parsed with less fuel
  induction fuel generalizing ctx P with
  | zero => exact .tooDeep
  | succ fuel ih =>
    have hexpr : Advances Any (fuel + 1) 1 (expr (fuel + 1)) := advances_binary _ _
    have hinner : Advances Any fuel 1 (expr (fuel + 1)) := hexpr.weaken (Nat.le_succ fuel)
    have hblock : ∀ (ctx : Context) stops, Advances Any fuel 0 (body (stmt fuel ctx) (fuel + 1) stops) :=
      fun ctx stops => advances_body (ih ctx) (Nat.le_succ fuel) stops
    have hN := Nat.le_succ fuel
    refine .peek_bind fun t => ?_
    cases hkind : t.kind with
    | pir =>
      have htaken := ne_nil_of_ahead (P := P) (t := t) (by rw [hkind]; decide)
      exact .bind_taken (.skip_of_ne htaken) fun _ => .bind .term fun _ => .node
    | global =>
      have htaken := ne_nil_of_ahead (P := P) (t := t) (by rw [hkind]; decide)
      refine .bind_taken (.skip_of_ne htaken) fun _ => .bind .next fun op => ?_
      refine .ite (fun _ => .fail_bind nofun) fun _ => .bind .term fun _ => .bind .term fun _ => ?_
      exact .bind hinner.weak fun _ => .node
    | ident =>
      have htaken := ne_nil_of_ahead (P := P) (t := t) (by rw [hkind]; decide)
      dsimp only
      split
      · exact advances_funcDef (hblock _) hN ctx.inBlock
      · exact advances_ifStmt hinner (hblock _) hN
      · exact advances_unlessStmt hinner (hblock _)
      · exact advances_whileLoop hinner (hblock _)
      · exact advances_forLoop hinner (hblock _) hN
      · exact .bind_taken (.skip_of_ne htaken) fun _ => .ite (fun _ => .node) fun _ => .fail nofun
      · refine .bind_taken (.skip_of_ne htaken) fun _ => .peek_bind fun after => ?_
        exact .ite (fun _ => .node) fun _ => .bind hinner.any.weak fun _ => .node
      · refine .bind_taken (.skip_of_ne htaken) fun _ => .bind .next fun name => ?_
        exact .ite (fun _ => .fail_bind nofun) fun _ => .bind .term fun _ => .node
      · refine .ite (fun _ => ?_) fun _ => .fail nofun
        exact advances_nameStmt hexpr (Nat.le_refl _) t htaken
    | _ => exact .fail nofun

theorem advances_program (fuel : Nat) : Advances P fuel 0 (program fuel) := by
  refine .peek_bind fun _ => .bind ?_ fun _ => .node
  exact advances_stmtList (advances_stmt fuel {}) (Nat.le_refl fuel) []

/-! ## The end of the tokens

Taking the end of input leaves the cursor where it is, so a loop that did so would never stop by
itself. Each loop tests what it sees before it goes on, and these tests fail at the end of input. -/

section AtEnd

variable {c : Cursor} {e : Token} {α : Type}

/-- At the end, every token ahead is the end of input. -/
theorem run_peek_bind_of_atEnd (h : c.AtEnd e) (i : Nat) (f : Token → Parser α) :
    (peek i >>= f).run c = (f e).run c := by
  have hahead : c.ahead i = .ok e := by simp [Cursor.ahead, h.rest_eq, h.ending_eq]
  rw [StateT.run_bind, run_peek, hahead]
  rfl

/-- At the end, to take the next token changes nothing. -/
theorem run_next_bind_of_atEnd (h : c.AtEnd e) (f : Token → Parser α) :
    (next >>= f).run c = (f e).run c := by
  have hahead : c.ahead = .ok e := by simp [Cursor.ahead, h.rest_eq, h.ending_eq]
  have hadvanced : c.advanced = c := by
    unfold Cursor.advanced
    rw [h.rest_eq]
    show ({ c with rest := [] } : Cursor) = c
    rw [← h.rest_eq]
  rw [StateT.run_bind, run_next hahead, hadvanced]
  rfl

theorem run_bind_of_error {β : Type} {p : Parser α} {f : α → Parser β} {x : SyntaxError} (h : p.run c = .error x) :
    (p >>= f).run c = .error x := by
  rw [StateT.run_bind, h]
  rfl

/-- At the end, an expression is missing. -/
theorem run_binary_of_atEnd (h : c.AtEnd e) (fuel limit : Nat) :
    (binary (fuel + 1) limit).run c = .error ⟨e, .expression⟩ := by
  have hsign : isSign e ≠ true := fun hsign => kind_of_isSign hsign h.kind_eq
  have hprimary : (primary (binary fuel Operator.loosest) (fuel + 1)).run c = .error ⟨e, .expression⟩ := by
    rw [primary, run_next_bind_of_atEnd h, h.kind_eq]
    rfl
  rw [binary]
  apply run_bind_of_error
  rw [unary, run_peek_bind_of_atEnd h, if_neg hsign]
  exact hprimary

/-- Behind the last token, every loop of the parser stops: a list is over, or the token that has to go on with it is
missing. -/
structure LoopsStop (fuel : Nat) (c : Cursor) (e : Token) : Prop where
  stmts : ∀ stmt stops, (stmts stmt stops (fuel + 1)).run c = .ok ([], c)
  skipNewlines : skipNewlines.run c = .ok ((), c)
  elsifArms : ∀ expr block, (elsifArms expr block (fuel + 1)).run c = .ok ([], c)
  climb : ∀ right limit left, (climb right limit (fuel + 1) left).run c = .ok (left, c)
  paramNames : (paramNames (fuel + 1)).run c = .error ⟨e, .nameExpected "parameter name"⟩
  forAssignments : ∀ expr, (forAssignments expr (fuel + 1)).run c = .error ⟨e, .forHeader⟩
  arguments : ∀ bracketed, (arguments (expr (fuel + 1)) bracketed (fuel + 1)).run c = .error ⟨e, .expression⟩

/-- At the end of the tokens every loop of the parser stops at once. -/
theorem loopsStop_of_atEnd (h : c.AtEnd e) (fuel : Nat) : LoopsStop fuel c e := by
  have he := h.kind_eq
  have hname : e.isName = false := isName_of_eof he
  -- one case for each loop: the first look finds the end of input, which is none of the tokens to go on
  -- at
  constructor
  case stmts =>
    intro stmt stops
    rw [Parser.stmts, run_peek_bind_of_atEnd h, if_neg (by rw [he]; decide), if_pos (endsBlock_of_eof he stops)]
    rfl
  case skipNewlines =>
    show Except.ok ((), { c with rest := c.rest.dropWhile Token.isNewline }) = Except.ok ((), c)
    rw [h.rest_eq, List.dropWhile_nil, ← h.rest_eq]
  case elsifArms =>
    intro expr block
    rw [Parser.elsifArms, run_peek_bind_of_atEnd h, if_neg (not_isKeyword_of_eof he _)]
    rfl
  case climb =>
    intro right limit left
    rw [Parser.climb, run_peek_bind_of_atEnd h,
      ofToken?_of_kind (by rw [he]; decide) (by rw [he]; decide)]
    rfl
  case paramNames =>
    rw [Parser.paramNames]
    apply run_bind_of_error
    rw [expectName, run_next_bind_of_atEnd h, if_neg (by rw [hname]; decide)]
    rfl
  case forAssignments =>
    intro expr
    rw [Parser.forAssignments, run_peek_bind_of_atEnd h, if_neg (by rw [hname]; decide), pure_bind]
    rfl
  case arguments =>
    intro bracketed
    have hnamed : isNamed e = pure false := by
      rw [isNamed, if_neg (by rw [hname]; decide)]
    rw [arguments_succ, run_peek_bind_of_atEnd h, hnamed, pure_bind]
    apply run_bind_of_error
    exact run_bind_of_error (run_binary_of_atEnd h fuel _)

end AtEnd

/-! ## All productions

The bounds are put together to what a caller sees: tokens were taken, and the fuel did not run out. -/

/-- A production that succeeds takes a token, and one with more fuel than there are tokens does not run out of it. -/
structure Progresses {α : Type} (fuel : Nat) (c : Cursor) (p : Parser α) : Prop where
  takes : ∀ a c₁, p.run c = .ok (a, c₁) → ∃ taken, taken ≠ [] ∧ c.rest = taken ++ c₁.rest
  bounded : c.rest.length < fuel → ∀ error, p.run c = .error error → error.fault ≠ .tooDeep

/-- With more fuel than there are tokens, a production does not run out of it. -/
theorem Advances.bounded {α : Type} {p : Parser α} {c : Cursor} {fuel k : Nat} (h : Advances Any fuel k p)
    (hc : c.Sealed) (hfuel : c.rest.length < fuel) {error : SyntaxError} (hrun : p.run c = .error error) :
    error.fault ≠ .tooDeep := by
  intro hdeep
  have hfrom := h c hc trivial
  unfold AdvancesFrom at hfrom
  rw [hrun] at hfrom
  exact Nat.not_le_of_lt hfuel (hfrom hdeep)

/-- A production that takes a token at least makes progress. -/
theorem Advances.progresses {α : Type} {p : Parser α} {c : Cursor} {fuel : Nat} (h : Advances Any fuel 1 p)
    (hc : c.Sealed) : Progresses fuel c p := by
  refine ⟨fun a c₁ hrun => ?_, fun hfuel error => h.bounded hc hfuel⟩
  have hfrom := h c hc trivial
  unfold AdvancesFrom at hfrom
  rw [hrun] at hfrom
  obtain ⟨taken, hone, hrest⟩ := hfrom.taken
  exact ⟨taken, List.ne_nil_of_length_pos hone, hrest⟩

/-- The productions of the grammar that make progress, each with the parsers it calls at a given fuel. -/
structure Productions (fuel : Nat) (c : Cursor) : Prop where
  stmt : ∀ ctx, Progresses fuel c (stmt fuel ctx)
  assignment : Progresses fuel c (assignment (expr fuel))
  funcDef : ∀ ctx inBlock, Progresses fuel c (funcDef (body (Parser.stmt fuel ctx) fuel) fuel inBlock)
  binary : ∀ limit, Progresses fuel c (binary fuel limit)
  unary : Progresses fuel c (unary (primary (expr fuel) fuel) fuel)
  primary : Progresses fuel c (primary (expr fuel) fuel)
  call : ∀ name, Progresses fuel c (call (expr fuel) fuel name)
  args : ∀ t bracketed, Progresses fuel c (args (expr fuel) fuel t bracketed)
  index : ∀ name, Progresses fuel c (index (expr fuel) name)

/-- All productions make progress, at any fuel. -/
theorem productions (fuel : Nat) {c : Cursor} (hc : c.Sealed) : Productions fuel c := by
  -- what is called with the same fuel comes first
  have hfuel := Nat.le_refl fuel
  have hexpr : Advances Any fuel 1 (expr fuel) := advances_binary fuel _
  have hprimary : Advances Any (fuel + 1) 1 (Parser.primary (expr fuel) fuel) := advances_primary hexpr hfuel
  have hoperand : Advances Any fuel 1 (Parser.primary (expr fuel) fuel) := hprimary.weaken (Nat.le_succ fuel)
  have hblock : ∀ ctx stops, Advances Any fuel 0 (body (Parser.stmt fuel ctx) fuel stops) :=
    fun ctx stops => advances_body (advances_stmt fuel ctx) hfuel stops
  constructor
  case stmt => exact fun ctx => (advances_stmt fuel ctx).progresses hc
  case assignment => exact (advances_assignment hexpr).progresses hc
  case funcDef =>
    intro ctx inBlock
    exact ((advances_funcDef (hblock ctx) hfuel inBlock).weaken (Nat.le_succ fuel)).progresses hc
  case binary => exact fun limit => (advances_binary fuel limit).progresses hc
  case unary => exact (advances_unary hoperand hfuel).progresses hc
  case primary => exact hoperand.progresses hc
  case call => exact fun name => (advances_call hexpr hfuel name).progresses hc
  case args => exact fun t bracketed => (advances_args hexpr hfuel t bracketed).progresses hc
  case index => exact fun name => (advances_index hexpr name).progresses hc

/-- A fuel above the number of tokens is never used up, so it does not matter how large it is. -/
theorem run_program_of_le {c : Cursor} (hc : c.Sealed) {e : Token} (hending : c.ending = .ok e) {fuel more : Nat}
    (hfuel : c.rest.length < fuel) (hmore : fuel ≤ more) : (program more).run c = (program fuel).run c := by
  have hdeepens := deepens_program hmore c e hending
  cases hrun : (program fuel).run c with
  | error error =>
    rw [hrun] at hdeepens
    exact hdeepens.resolve_right ((advances_program fuel).bounded hc hfuel hrun)
  | ok r =>
    rw [hrun] at hdeepens
    exact hdeepens.1

end Parser

/-- What stands behind the tokens of a source is the end of input or a lexical fault. -/
theorem sealed_start (l : Lexed) : (Cursor.start l).Sealed := by
  refine ⟨fun t ht => kind_of_ending l ht, fun e he => ?_⟩
  have hending : l.ending = .error e := he
  unfold Lexed.ending at hending
  split at hending
  · cases hending
  · cases hending
    exact nofun

/-- A parser for whole sources has fuel enough. -/
theorem fault_of_parse {src : Source} {error : SyntaxError} (h : parse src = .error error) :
    error.fault ≠ .tooDeep := by
  unfold parse parseFrom at h
  cases hrun : (Parser.program ((Cursor.start (lex src)).rest.length + 1)).run (.start (lex src)) with
  | error e =>
    rw [hrun] at h
    cases h
    exact (Parser.advances_program _).bounded (sealed_start _) (Nat.lt_succ_self _) hrun
  | ok r =>
    rw [hrun] at h
    cases h

/-- The front end always makes progress. Each state of the lexer takes a glyph or ends the reading; each production of
the parser that succeeds takes a token, and at the end of the tokens each loop stops. So a lexer with more steps
than there are glyphs is not stopped, and neither is a parser with more fuel than there are tokens. -/
theorem front_end_progresses (src : Source) (c : Cursor) (hc : c.Sealed) (fuel : Nat) :
    (∀ pos g s, Lexer.Consuming src.ending pos g s) ∧
    (src.glyphs.length < fuel → Lexer.lexWithin? src.ending fuel src.glyphs {} = some (lex src)) ∧
    Parser.Productions fuel c ∧
    (∀ e, c.AtEnd e → Parser.LoopsStop fuel c e) ∧
    (c.rest.length < fuel →
      (∀ error, (Parser.program fuel).run c = .error error → error.fault ≠ .tooDeep) ∧
      ∀ e more, c.ending = .ok e → fuel ≤ more → (Parser.program more).run c = (Parser.program fuel).run c) ∧
    ∀ error, parse src = .error error → error.fault ≠ .tooDeep := by
  refine ⟨fun pos g s => Lexer.consuming _ pos g s, fun hfuel => ?_, Parser.productions fuel hc, ?_, ?_, ?_⟩
  · exact Lexer.lexWithin?_eq src.ending src.glyphs {} fuel hfuel
  · exact fun e he => Parser.loopsStop_of_atEnd he fuel
  · intro hfuel
    refine ⟨fun error hrun => (Parser.advances_program fuel).bounded hc hfuel hrun, fun e more hending hmore => ?_⟩
    exact Parser.run_program_of_le hc hending hfuel hmore
  · exact fun error => fault_of_parse

/-- `puts(1,` breaks off where another argument has to stand. -/
theorem front_end_progresses_broken_off :
    let src := Source.ofString "puts(1,"
    let c := Cursor.start (lex src)
    let e : Token := ⟨.eof, "", 1, 8⟩
    let last : Cursor := ⟨[], .ok e, 3⟩
    c.Sealed ∧ src.glyphs.length < 8 ∧ c.rest.length < 5 ∧ c.ending = .ok e ∧ last.Sealed ∧ last.AtEnd e ∧
      Lexer.lexWithin? src.ending 8 src.glyphs {} = some (lex src) ∧ Parser.Productions 5 c ∧
      Parser.LoopsStop 1 last e ∧ (Parser.program 100).run c = (Parser.program 5).run c ∧
      ∀ error, parse src = .error error → error.fault ≠ .tooDeep := by
  intro src c e last
  -- the tokens of the source are evaluated once
  have hlexed : lex src = ⟨[.token ⟨.ident, "puts", 1, 1⟩, .token ⟨.opening, "(", 1, 5⟩, .token ⟨.int, "1", 1, 6⟩,
      .token ⟨.comma, ",", 1, 7⟩], none⟩ := by
    decide +kernel
  have hstart : c = .start _ := congrArg Cursor.start hlexed
  have hc : c.Sealed := sealed_start _
  have hend : last.AtEnd e := ⟨rfl, rfl, rfl⟩
  have hlast : last.Sealed := hend.sealed
  have hglyphs : src.glyphs.length < 8 := by decide
  have hrest : c.rest.length < 5 := by
    rw [hstart]
    decide
  have hending : c.ending = .ok e := by
    rw [hstart]
    rfl
  -- applied three times: to the glyphs, to the tokens and to the end of input
  obtain ⟨-, hlex, -⟩ := front_end_progresses src c hc 8
  obtain ⟨-, -, hproductions, -, hprogram, hparse⟩ := front_end_progresses src c hc 5
  obtain ⟨-, -, -, hloops, -⟩ := front_end_progresses src last hlast 1
  refine ⟨hc, hglyphs, hrest, hending, hlast, hend, hlex hglyphs, hproductions, hloops e hend, ?_, hparse⟩
  exact (hprogram hrest).2 e 100 hending (by decide)

end ScriptPir

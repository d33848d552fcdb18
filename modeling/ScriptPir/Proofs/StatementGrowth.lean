import ScriptPir.Proofs.Growth
import ScriptPir.Proofs.Lexing
import ScriptPir.Tree.Statement

/-!
# Parsing the beginning of a program

The productions of statements are compared as those of expressions are, in the order in which they call
each other. A list of statements may stop at the end of its tokens; a construct around it cannot, because
it has to be closed.

Main statement: `parse_error_final` — an error at a token that is there is the error of the whole.

Two runs are compared, on the tokens of some text and on those of a longer one. They do the same until
the first one looks behind its last token. `Tracks` says so of one production; whether it may succeed at
the end of the tokens is a parameter, which only lists of statements, and what can stand last in one,
may set.
-/

namespace ScriptPir

namespace Parser

variable {ending : Except SyntaxError Token} {x : Continued} {P : List Token → Prop} {N : Nat}

theorem endsBlock_of_eof {e : Token} (he : e.kind = .eof) (stops : List String) :
    endsBlock stops e = true := by
  simp [endsBlock, he]

/-! ## Blocks

A block is what may stop at the end of its tokens: there it looks complete, and goes on when there
are more. All other productions have something to wait for. -/

/-- At the end of the tokens, a list of statements is over. -/
theorem lapses_stmts (stmt : Parser Node) (stops : List String) (fuel : Nat) :
    Lapses ending True (stmts stmt stops fuel) := by
  cases fuel with
  | zero => exact Lapses.tooDeep.mono
  | succ fuel =>
    refine .peek_bind fun e he _ => ?_
    rw [if_neg (by rw [he]; decide), if_pos (endsBlock_of_eof he stops)]
    exact .pure

/-- A list of statements is parsed as in the whole text, or comes to the end of its tokens. -/
theorem tracks_stmts {stmt stmt' : Parser Node} (h : Tracks x Any False N 1 stmt stmt')
    (stops : List String) {fuel fuel' : Nat} (hle : fuel ≤ fuel') (hN : N ≤ fuel) :
    Tracks x P True N 0 (stmts stmt stops fuel) (stmts stmt' stops fuel') := by
  induction fuel generalizing fuel' N P with
  | zero =>
    obtain rfl := Nat.le_zero.mp hN
    exact .none
  | succ fuel ih =>
    cases N with
    | zero => exact .none
    | succ n =>
      obtain ⟨fuel', rfl⟩ : ∃ m, fuel' = m + 1 := ⟨fuel' - 1, by omega⟩
      have hrest : ∀ {P}, Tracks x P True n 0 (stmts stmt stops fuel)
          (stmts stmt' stops fuel') := ih (h.weaken (Nat.le_succ n)) (by omega) (by omega)
      refine .peek_bind_of_lapses (lapses_stmts stmt stops (fuel + 1)) fun t _ => ?_
      refine .ite (fun _ => ?_) fun _ => .ite (fun _ => .pure) fun _ => .weak ?_
      · exact .weak (.bind_taken .skip (fun _ => hrest) fun _ _ => lapses_stmts stmt stops fuel)
      -- once a statement is taken, the rest of the list is compared by induction, and it may lapse
      have hlist : ∀ (P : List Token → Prop) (s : Node), Tracks x P True n 0
          (do return s :: (← stmts stmt stops fuel)) (do return s :: (← stmts stmt' stops fuel')) :=
        fun P s => .bind hrest (fun _ => .pure) fun _ _ => .pure
      have hlast : ∀ s : Node, Lapses x.ending True (do return s :: (← stmts stmt stops fuel)) :=
        fun s => (lapses_stmts stmt stops fuel).bind fun _ _ => .pure
      refine .bind_taken h.any.lax (fun s => ?_)
        False.elim
      refine .peek_bind_of_lapses ?_ fun after _ => ?_
      · refine .peek_bind fun e he _ => ?_
        rw [if_neg (by rw [he]; decide), if_neg (by rw [endsBlock_of_eof he]; decide)]
        exact hlast s
      · refine .ite (fun _ => .bind (.weak .skip) (fun _ => hlist _ s) fun _ _ => hlast s) fun _ => ?_
        exact .ite (fun _ => .fail_bind) fun _ => hlist _ s

/-- At the end of the tokens, the statements of a body are over. -/
theorem lapses_stmtList (stmt : Parser Node) (fuel : Nat) (stops : List String) :
    Lapses ending True (stmtList stmt fuel stops) :=
  .peek_bind fun _ _ _ => (lapses_stmts stmt stops fuel).bind fun _ _ => .node

theorem lapses_body (stmt : Parser Node) (fuel : Nat) (stops : List String) :
    Lapses ending True (body stmt fuel stops) :=
  .peek_bind fun _ _ _ => (lapses_stmtList stmt fuel stops).bind fun _ _ => .node

/-- The statements of a body are parsed as in the whole text. -/
theorem tracks_stmtList {stmt stmt' : Parser Node} (h : Tracks x Any False N 1 stmt stmt')
    {fuel fuel' : Nat} (hle : fuel ≤ fuel') (hN : N ≤ fuel) (stops : List String) :
    Tracks x P True N 0 (stmtList stmt fuel stops) (stmtList stmt' fuel' stops) := by
  refine .peek_bind_of_lapses (lapses_stmtList stmt fuel stops) fun first _ => ?_
  exact .bind (tracks_stmts h stops hle hN) (fun _ => .lax .node) fun _ _ => .node

/-- A body is parsed as in the whole text. -/
theorem tracks_body {stmt stmt' : Parser Node} (h : Tracks x Any False N 1 stmt stmt')
    {fuel fuel' : Nat} (hle : fuel ≤ fuel') (hN : N ≤ fuel) (stops : List String) :
    Tracks x P True N 0 (body stmt fuel stops) (body stmt' fuel' stops) := by
  refine .peek_bind_of_lapses (lapses_body stmt fuel stops) fun t _ => ?_
  exact .bind (tracks_stmtList h hle hN stops) (fun _ => .lax .node) fun _ _ => .node

/-! ## Branches and loops

A construct is closed by its `end`, so it fails at the end of the tokens, even where the block in it
stopped there. -/

theorem not_isKeyword_of_eof {e : Token} (he : e.kind = .eof) (word : String) :
    ¬ e.isKeyword word = true := by
  simp [Token.isKeyword, he]

theorem ne_nil_of_head {t : Token} (l : List Token) (h : P l ∧ l[0]? = some t) : l ≠ [] := by
  rintro rfl
  cases h.2

/-- At the end of the tokens, there is no last arm. -/
theorem lapses_elseArm (block : List String → Parser Node) : Lapses ending True (elseArm block) := by
  refine .peek_bind fun e he _ => ?_
  rw [if_neg (not_isKeyword_of_eof he _)]
  exact .pure

/-- At the end of the tokens, there are no further arms. -/
theorem lapses_elsifArms (expr : Parser Node) (block : List String → Parser Node) (fuel : Nat) :
    Lapses ending True (elsifArms expr block fuel) := by
  cases fuel with
  | zero => exact Lapses.tooDeep.mono
  | succ fuel =>
    refine .peek_bind fun e he _ => ?_
    rw [if_neg (not_isKeyword_of_eof he _)]
    exact .pure

/-- What has to be closed by a keyword cannot stop at the end. -/
theorem needs_end {α : Type} {f : Token → Parser α} : Needs ending (expectKeyword "end" >>= f) :=
  Lapses.expectKeyword.needs_bind

/-- The end of a construct is parsed as in the whole text. -/
theorem tracks_end {kind : Kind} {t : Token} {children : List Node} :
    Tracks x P False N 0
      (do let _ ← expectKeyword "end"; node kind t children)
      (do let _ ← expectKeyword "end"; node kind t children) :=
  .andThen (.weak .expectKeyword) fun _ => .node

section Blocks

variable {expr expr' : Parser Node} {block block' : List String → Parser Node}
  (hneeds : Needs x.ending expr) (hexpr : Tracks x Any False N 1 expr expr')
  (hlapses : ∀ stops, Lapses x.ending True (block stops))
  (hblock : ∀ stops, Tracks x Any True N 0 (block stops) (block' stops))

include hneeds

theorem needs_condition (word : String) : Needs x.ending (condition expr word) :=
  .peek_bind fun _ _ _ => hneeds.needs_bind

include hexpr

/-- A condition is parsed as in the whole text. -/
theorem tracks_condition (word : String) :
    Tracks x P False N 0 (condition expr word) (condition expr' word) := by
  refine .peek_bind_of_lapses (needs_condition hneeds word) fun t _ => ?_
  refine .andThen hexpr.any.weak fun e => .peek_bind_of_lapses ?_ fun after _ => ?_
  · refine .peek_bind fun after he _ => ?_
    rw [if_neg (not_isKeyword_of_eof he _), if_pos (by rw [he]; decide)]
    exact .needs_bind (.fail he)
  · refine .ite (fun _ => .andThen (.weak (.skip_of_ne ne_nil_of_head)) fun _ => .node) fun _ => ?_
    exact .ite (fun _ => .fail_bind) fun _ => .node

include hlapses hblock

omit hneeds hexpr in
/-- The last arm is parsed as in the whole text. -/
theorem tracks_elseArm : Tracks x P True N 0 (elseArm block) (elseArm block') := by
  refine .peek_bind_of_lapses (lapses_elseArm block) fun t _ => .ite (fun _ => ?_) fun _ => .pure
  refine .bind (.weak .skip) (fun _ => .bind (hblock _) (fun b => ?_) ?_) fun _ _ => ?_
  · exact .lax (.andThen .node fun _ => .pure)
  · exact fun _ _ => .bind .node fun _ _ => .pure
  · exact (hlapses _).bind fun _ _ => .bind .node fun _ _ => .pure

omit hlapses in
/-- Further arms are parsed as in the whole text. -/
theorem tracks_elsifArms {fuel fuel' : Nat} (hle : fuel ≤ fuel') (hN : N ≤ fuel) :
    Tracks x P True N 0 (elsifArms expr block fuel) (elsifArms expr' block' fuel') := by
  induction fuel generalizing fuel' N P with
  | zero =>
    obtain rfl := Nat.le_zero.mp hN
    exact .none
  | succ fuel ih =>
    cases N with
    | zero => exact .none
    | succ n =>
      obtain ⟨fuel', rfl⟩ : ∃ m, fuel' = m + 1 := ⟨fuel' - 1, by omega⟩
      have hexpr' := hexpr.weaken (Nat.le_succ n)
      have hblock' := fun stops => (hblock stops).weaken (Nat.le_succ n)
      -- behind an arm the tokens may be at an end; then there are no further arms
      have harms : ∀ arm : Node, Lapses x.ending True (do return arm :: (← elsifArms expr block fuel)) :=
        fun _ => (lapses_elsifArms expr block fuel).bind fun _ _ => .pure
      refine .peek_bind_of_lapses (lapses_elsifArms expr block (fuel + 1)) fun t _ =>
        .ite (fun _ => ?_) fun _ => .pure
      refine .weak (.bind_taken .skip (fun _ => ?_) fun _ _ => (needs_condition hneeds _).needs_bind)
      refine .andThen (tracks_condition hneeds hexpr' _) fun c => ?_
      refine .bind (hblock' _) (fun b => .andThen .node fun arm => ?_) fun _ _ => .bind .node fun _ => harms
      exact .bind (ih hexpr' hblock' (by omega) (by omega)) (fun _ => .pure) fun _ _ => .pure

/-- A branch is parsed as in the whole text. -/
theorem tracks_ifStmt {fuel fuel' : Nat} (hle : fuel ≤ fuel') (hN : N ≤ fuel) :
    Tracks x P False (N + 1) 1 (ifStmt expr block fuel) (ifStmt expr' block' fuel') := by
  refine .bind_taken .expectKeyword (fun t => ?_) False.elim
  refine .andThen (tracks_condition hneeds hexpr _) fun c => .bind (hblock _) (fun b => ?_) fun _ _ => ?_
  · refine .bind (tracks_elsifArms hneeds hexpr hblock hle hN) (fun arms => ?_) fun _ _ => ?_
    · exact .bind (tracks_elseArm hlapses hblock) (fun _ => tracks_end) fun _ _ => needs_end
    · exact (lapses_elseArm block).bind fun _ _ => needs_end
  · exact (lapses_elsifArms expr block fuel).bind fun _ _ => (lapses_elseArm block).bind fun _ _ => needs_end

/-- A negated branch is parsed as in the whole text. -/
theorem tracks_unlessStmt :
    Tracks x P False (N + 1) 1 (unlessStmt expr block) (unlessStmt expr' block') := by
  refine .bind_taken .expectKeyword (fun t => ?_) False.elim
  refine .andThen (tracks_condition hneeds hexpr _) fun c => .bind (hblock _) (fun b => ?_) fun _ _ => ?_
  · exact .bind (tracks_elseArm hlapses hblock) (fun _ => tracks_end) fun _ _ => needs_end
  · exact (lapses_elseArm block).bind fun _ _ => needs_end

omit hlapses in
/-- A loop is parsed as in the whole text. -/
theorem tracks_whileLoop :
    Tracks x P False (N + 1) 1 (whileLoop expr block) (whileLoop expr' block') := by
  refine .bind_taken .expectKeyword (fun t => ?_) False.elim
  refine .andThen (tracks_condition hneeds hexpr _) fun c => ?_
  exact .bind (hblock _) (fun b => tracks_end) fun _ _ => needs_end

end Blocks

/-! ## Assignments

The production is cut in two, behind the name and behind the operator: what is known of the token
ahead differs. -/

section Assignments

variable {expr expr' : Parser Node} (hneeds : Needs x.ending expr)
  (hexpr : Tracks x Any False N 1 expr expr')

/-- The value of an assignment, behind its operator; `t` is the token there, if the operator is the plain
one. -/
def assigned (expr : Parser Node) (name op t : Token) : Parser Node :=
  if t.isOpening "[" then do
    skip
    let closing ← next
    if ¬(closing.kind = .closing ∧ closing.text = "]") then fail closing .arrayNotEmpty
    let nameTerm ← term name
    let opTerm ← term op
    node .arrayInit name [nameTerm, opTerm]
  else do
    let fromGlobal ← if t.kind = .global then Token.endsStmt <$> peek 1 else pure false
    if fromGlobal then
      skip
      let nameTerm ← term name
      let opTerm ← term op
      let global ← term t
      node .globalGet name [nameTerm, opTerm, global]
    else
      skipNewlines
      let nameTerm ← term name
      let opTerm ← term op
      let e ← expr
      node .assign name [nameTerm, opTerm, e]

/-- An assignment behind its name. -/
def assignTo (expr : Parser Node) (name : Token) : Parser Node := do
  if (← peek).isOpening "[" then
    let target ← index expr name
    let op ← next
    if !op.isOp "=" then fail op (.elementAssign target.text)
    let opTerm ← term op
    let e ← expr
    node .indexAssign name [target, opTerm, e]
  else
    let op ← next
    if !op.isAssign then fail op .assignExpected
    let t ← if op.text = "=" then peek else pure op
    assigned expr name op t

theorem assignment_eq (expr : Parser Node) : assignment expr = next >>= assignTo expr := rfl

/-- At the end of the tokens, the operator of an assignment is missing. -/
theorem needs_assignTo (name : Token) : Needs ending (assignTo expr name) := by
  refine .peek_bind fun e he _ => ?_
  rw [if_neg (by simp [Token.isOpening, he])]
  refine .next_bind fun op hop _ => ?_
  rw [if_pos (by simp [Token.isAssign, hop])]
  exact .needs_bind (.fail hop)

/-- At the end of the tokens, an assignment is missing in a header. -/
theorem needs_forAssignments (expr : Parser Node) (fuel : Nat) :
    Needs ending (forAssignments expr fuel) := by
  cases fuel with
  | zero => exact .tooDeep
  | succ fuel =>
    refine .peek_bind fun e he _ => ?_
    rw [if_neg (by rw [isName_of_eof he]; decide), pure_bind]
    exact .needs_bind (.fail he)

include hneeds

/-- At the end of the tokens, the value of an assignment is missing. -/
theorem needs_assigned {name op t : Token} (hopening : t.kind ≠ .opening) (hglobal : t.kind ≠ .global) :
    Needs x.ending (assigned expr name op t) := by
  unfold assigned
  rw [if_neg (by simp [Token.isOpening, hopening]), if_neg hglobal, pure_bind]
  exact .bind .skipNewlines fun _ _ => .bind .term fun _ _ => .bind .term fun _ _ => hneeds.needs_bind

include hexpr

/-- A global that is assigned is the next token. -/
theorem tracks_assigned (name op : Token) {t : Token}
    (hhead : t.kind = .global → ∀ l, P l → l ≠ []) :
    Tracks x P False N 0 (assigned expr name op t) (assigned expr' name op t) := by
  -- the branches are compared on their own, since the choice looks one token further
  have hvalue : ∀ P, Tracks x P False N 0
      (do
        skipNewlines
        let nameTerm ← term name
        let opTerm ← term op
        let e ← expr
        node .assign name [nameTerm, opTerm, e])
      (do
        skipNewlines
        let nameTerm ← term name
        let opTerm ← term op
        let e ← expr'
        node .assign name [nameTerm, opTerm, e]) := by
    intro P
    refine .bind .skipNewlines (fun _ => .andThen .term fun _ => .andThen .term fun _ => ?_) fun _ _ => ?_
    · exact .andThen hexpr.weak fun _ => .node
    · exact .bind .term fun _ _ => .bind .term fun _ _ => hneeds.needs_bind
  have hglobal : ∀ P : List Token → Prop, (∀ l, P l → l ≠ []) → Tracks x P False N 0
      (do
        skip
        let nameTerm ← term name
        let opTerm ← term op
        let global ← term t
        node .globalGet name [nameTerm, opTerm, global])
      (do
        skip
        let nameTerm ← term name
        let opTerm ← term op
        let global ← term t
        node .globalGet name [nameTerm, opTerm, global]) := by
    intro P hP
    refine .andThen (.weak (.skip_of_ne hP)) fun _ => .andThen .term fun _ => ?_
    exact .andThen .term fun _ => .andThen .term fun _ => .node
  unfold assigned
  refine .ite (fun _ => ?_) fun _ => .ite_bind (fun hkind => ?_) fun _ => ?_
  · refine .bind (.weak .skip) (fun _ => .next_bind_weak (fun closing _ => ?_) ?_) ?_
    · exact .ite (fun _ => .fail_bind) fun _ => .andThen .term fun _ => .andThen .term fun _ => .node
    · exact fun e he _ => .ite (fun _ => .needs_bind (.fail he)) fun h => by simp [he] at h
    · exact fun _ _ => .next_bind fun e he _ => .ite (fun _ => .needs_bind (.fail he)) fun h => by
        simp [he] at h
  · rw [map_eq_pure_bind, bind_assoc, bind_assoc]
    refine .peek_bind (fun l hl => ?_) (fun after _ => ?_) fun e nl he _ hnl _ => ?_
    · exact List.length_pos_iff.mpr (hhead hkind l hl)
    · rw [pure_bind, pure_bind]
      exact .ite (fun _ => hglobal _ fun l hl => hhead hkind l hl.1) fun _ => hvalue _
    · -- both the end of input and a line feed end a statement
      have hends : e.endsStmt = true ∧ nl.endsStmt = true := by
        simp [Token.endsStmt, he, kind_of_isNewline hnl]
      rw [hends.1, hends.2, pure_bind, pure_bind]
      exact hglobal _ fun l hl => hhead hkind l hl.1
  · rw [pure_bind, pure_bind]
    exact hvalue _

/-- What stands behind the name of an assignment is parsed as in the whole text. -/
theorem tracks_assignTo (name : Token) :
    Tracks x P False N 0 (assignTo expr name) (assignTo expr' name) := by
  refine .peek_bind_of_lapses (needs_assignTo name) fun t _ => .ite (fun _ => ?_) fun _ => ?_
  · refine .andThen (tracks_index hneeds hexpr name) fun target => .next_bind_weak (fun op _ => ?_) ?_
    · refine .ite (fun _ => .fail_bind) fun _ => .andThen .term fun _ => ?_
      exact .andThen hexpr.weak fun _ => .node
    · intro e he _
      rw [if_pos (by simp [Token.isOp, he])]
      exact .needs_bind (.fail he)
  · refine .next_bind_weak (fun op _ => .ite (fun _ => .fail_bind) fun hassign => ?_) ?_
    · refine .ite_bind (fun _ => .peek_bind_of_lapses ?_ fun t _ => ?_) fun _ => ?_
      · exact .peek_bind fun e he _ =>
          needs_assigned hneeds (by rw [he]; decide) (by rw [he]; decide)
      · exact tracks_assigned hneeds hexpr name op fun _ => ne_nil_of_head
      · -- the operator is no bracket and no global
        have hop : op.kind = .op := by
          simp only [Token.isAssign, Bool.not_eq_true', Bool.not_eq_false, Bool.and_eq_true,
            decide_eq_true_eq] at hassign
          exact hassign.1
        rw [pure_bind, pure_bind]
        exact tracks_assigned hneeds hexpr name op fun hglobal => by rw [hop] at hglobal; cases hglobal
    · intro e he _
      rw [if_pos (by simp [Token.isAssign, he])]
      exact .needs_bind (.fail he)

theorem tracks_assignment :
    Tracks x P False (N + 1) 1 (assignment expr) (assignment expr') :=
  .next_bind (fun name _ => tracks_assignTo hneeds hexpr name) fun name _ _ => needs_assignTo name

/-- The assignments in a header are parsed as in the whole text. -/
theorem tracks_forAssignments {fuel fuel' : Nat} (hle : fuel ≤ fuel') (hN : N ≤ fuel) :
    Tracks x P False N 1 (forAssignments expr fuel) (forAssignments expr' fuel') := by
  induction fuel generalizing fuel' N P with
  | zero =>
    obtain rfl := Nat.le_zero.mp hN
    exact .none
  | succ fuel ih =>
    cases N with
    | zero => exact .none
    | succ n =>
      obtain ⟨fuel', rfl⟩ : ∃ m, fuel' = m + 1 := ⟨fuel' - 1, by omega⟩
      have hrest : ∀ {P}, Tracks x P False n 1 (forAssignments expr fuel)
          (forAssignments expr' fuel') :=
        ih (hexpr.weaken (Nat.le_succ n)) (by omega) (by omega)
      refine .peek_bind_of_lapses (needs_forAssignments expr (fuel + 1)) fun t _ => ?_
      -- what the two ways to look ahead have in common
      have hgo : ∀ (P : List Token → Prop) (starts : Bool), Tracks x P False (n + 1) 1
          (do
            if !starts then Parser.fail t .forHeader
            let a ← assignment expr
            if (← peek).kind ≠ .comma then return [a]
            skip
            return a :: (← forAssignments expr fuel))
          (do
            if !starts then Parser.fail t .forHeader
            let a ← assignment expr'
            if (← peek).kind ≠ .comma then return [a]
            skip
            return a :: (← forAssignments expr' fuel')) := by
        intro P starts
        refine .ite (fun _ => .fail_bind) fun _ => ?_
        refine .bind_taken (tracks_assignment hneeds (hexpr.weaken (Nat.le_succ n))) (fun a => ?_) False.elim
        refine .peek_bind (fun _ _ => Nat.zero_le _) (fun after _ => .ite (fun _ => .pure) fun _ => ?_) ?_
        · refine .bind (.weak .skip) (fun _ => .andThen hrest.weak fun _ => .pure) fun _ _ => ?_
          exact (needs_forAssignments expr fuel).needs_bind
        · intro e nl he _ hnl _
          rw [if_pos (by rw [he]; decide), if_pos (by rw [kind_of_isNewline hnl]; decide)]
          exact .pure
      refine .ite_bind (fun hname => ?_) fun _ => ?_
      · rw [map_eq_pure_bind, bind_assoc, bind_assoc]
        refine .peek_bind (fun l hl => ?_) (fun after _ => ?_) fun e nl he _ hnl _ => ?_
        · exact (List.getElem?_eq_some_iff.mp hl.2).1
        · rw [pure_bind, pure_bind]
          exact hgo _ _
        · have hstarts : startsAssignment t e = startsAssignment t nl := by
            simp [startsAssignment, Token.isAssign, Token.isOpening, he, kind_of_isNewline hnl]
          rw [hstarts, pure_bind, pure_bind]
          exact hgo _ _
      · rw [pure_bind, pure_bind]
        exact hgo _ _

omit hneeds hexpr in
/-- At the end of the tokens, a part of a header is missing. -/
theorem needs_forClause (fuel : Nat) (kind : Kind) {close : String} (hclose : close ≠ "") :
    Needs ending (forClause expr fuel kind close) := by
  refine .peek_bind fun e _ htext => .bind .fresh fun _ _ => ?_
  rw [if_neg (by rw [htext]; exact hclose.symm)]
  exact (needs_forAssignments expr fuel).needs_bind

/-- A part of a header is parsed as in the whole text. -/
theorem tracks_forClause {fuel fuel' : Nat} (hle : fuel ≤ fuel') (hN : N ≤ fuel) (kind : Kind)
    {close : String} (hclose : close ≠ "") :
    Tracks x P False N 0 (forClause expr fuel kind close)
      (forClause expr' fuel' kind close) := by
  refine .peek_bind_of_lapses (needs_forClause fuel kind hclose) fun t _ => .andThen .fresh fun id => ?_
  refine .ite (fun _ => .pure) fun _ => ?_
  exact .andThen (tracks_forAssignments hneeds hexpr hle hN).weak fun _ => .pure

end Assignments

section Loops

variable {expr expr' : Parser Node} {block block' : List String → Parser Node}
  (hneeds : Needs x.ending expr) (hexpr : Tracks x Any False N 1 expr expr')
  (hblock : ∀ stops, Tracks x Any True N 0 (block stops) (block' stops))

include hneeds hexpr hblock

/-- A loop with a header is parsed as in the whole text. -/
theorem tracks_forLoop {fuel fuel' : Nat} (hle : fuel ≤ fuel') (hN : N ≤ fuel) :
    Tracks x P False (N + 1) 1 (forLoop expr block fuel) (forLoop expr' block' fuel') := by
  refine .bind_taken .expectKeyword (fun t => ?_) False.elim
  refine .andThen (.weak (.expect (by decide))) fun _ => ?_
  refine .andThen (tracks_forClause hneeds hexpr hle hN _ (by decide)) fun init => ?_
  refine .andThen (.weak (.expect (by decide))) fun _ => ?_
  refine .peek_bind_of_lapses (.peek_bind fun _ _ _ => hneeds.needs_bind) fun condToken _ => ?_
  refine .andThen hexpr.any.weak fun e => .andThen .node fun c => ?_
  refine .andThen (.weak (.expect (by decide))) fun _ => ?_
  refine .andThen (tracks_forClause hneeds hexpr hle hN _ (by decide)) fun step => ?_
  refine .andThen (.weak (.expect (by decide))) fun _ => ?_
  exact .bind (hblock _) (fun b => tracks_end) fun _ _ => needs_end

end Loops

/-! ## Functions

Without brackets, parameters may be missing, which is what the parser takes the end of the tokens
for. The end of the function is missing then as well, so the function fails nevertheless. -/

/-- At the end of the tokens, a name is missing. -/
theorem needs_paramNames (fuel : Nat) : Needs ending (paramNames fuel) := by
  cases fuel with
  | zero => exact .tooDeep
  | succ fuel => exact Lapses.expectName.needs_bind

/-- The names of parameters are parsed as in the whole text. -/
theorem tracks_paramNames {fuel fuel' : Nat} (hle : fuel ≤ fuel') (hN : N ≤ fuel) :
    Tracks x P False N 1 (paramNames fuel) (paramNames fuel') := by
  induction fuel generalizing fuel' N P with
  | zero =>
    obtain rfl := Nat.le_zero.mp hN
    exact .none
  | succ fuel ih =>
    cases N with
    | zero => exact .none
    | succ n =>
      obtain ⟨fuel', rfl⟩ : ∃ m, fuel' = m + 1 := ⟨fuel' - 1, by omega⟩
      refine .bind_taken .expectName (fun t => .andThen .term fun p => ?_) False.elim
      refine .peek_bind (fun _ _ => Nat.zero_le _) (fun after _ => .ite (fun _ => .pure) fun _ => ?_) ?_
      · refine .bind (.weak .skip) (fun _ => .bind .skipNewlines (fun _ => ?_) ?_) ?_
        · exact .andThen (ih (by omega) (by omega)).weak fun _ => .pure
        · exact fun _ _ => (needs_paramNames fuel).needs_bind
        · exact fun _ _ => .bind .skipNewlines fun _ _ => (needs_paramNames fuel).needs_bind
      -- neither the end of input nor a line feed is a comma
      · intro e nl he _ hnl _
        rw [if_pos (by rw [he]; decide), if_pos (by rw [kind_of_isNewline hnl]; decide)]
        exact .pure

/-- At the end of the tokens, a function has no parameters. -/
theorem lapses_params (fuel : Nat) : Lapses ending True (params fuel) := by
  refine .peek_bind fun e he _ => .bind .fresh fun _ _ => ?_
  rw [if_neg (by simp [Token.isOpening, he]), if_neg (by rw [isName_of_eof he]; decide)]
  exact .pure

/-- A parameter list that is left out may be so at the end. -/
theorem tracks_params {fuel fuel' : Nat} (hle : fuel ≤ fuel') (hN : N ≤ fuel) :
    Tracks x P True N 0 (params fuel) (params fuel') := by
  have hnames : ∀ P, Tracks x P False N 0 (paramNames fuel) (paramNames fuel') :=
    fun P => (tracks_paramNames hle hN).weak
  refine .peek_bind_of_lapses (lapses_params fuel) fun t _ => .lax (.andThen .fresh fun id => ?_)
  -- the part from the last name on is the same with names and without
  have hclose : ∀ (P : List Token → Prop) (names : List Node), Tracks x P False N 0
      (do
        skipNewlines
        let _ ← Parser.expect .closing ")"
        return Node.mk id .params t names)
      (do
        skipNewlines
        let _ ← Parser.expect .closing ")"
        return Node.mk id .params t names) := by
    intro P names
    refine .bind .skipNewlines (fun _ => .andThen (.weak (.expect (by decide))) fun _ => .pure) ?_
    exact fun _ _ => (Lapses.expect (by decide)).needs_bind
  have hend : ∀ f : List Node → Parser Node, Needs x.ending (do
      let names ← if (← Parser.peek).kind ≠ .closing then paramNames fuel else Pure.pure []
      f names) := by
    intro f
    refine .peek_bind fun e he _ => ?_
    rw [if_pos (by rw [he]; decide)]
    exact (needs_paramNames fuel).needs_bind
  refine .ite (fun _ => ?_) fun _ => .ite (fun _ => .andThen (hnames _) fun _ => .pure) fun _ => .pure
  refine .bind (.weak .skip) (fun _ => .bind .skipNewlines (fun _ => ?_) fun _ _ => hend _) fun _ _ =>
    .bind .skipNewlines fun _ _ => hend _
  refine .peek_bind_of_lapses (hend _) fun after _ => ?_
  exact .ite_bind (fun _ => .andThen (hnames _) (hclose _)) fun _ => .andThen .pure (hclose _)

/-- A function is parsed as in the whole text. -/
theorem tracks_funcDef {block block' : List String → Parser Node}
    (hlapses : ∀ stops, Lapses x.ending True (block stops))
    (hblock : ∀ stops, Tracks x Any True N 0 (block stops) (block' stops)) {fuel fuel' : Nat}
    (hle : fuel ≤ fuel') (hN : N ≤ fuel) (inBlock : Bool) :
    Tracks x P False (N + 1) 1 (funcDef block fuel inBlock) (funcDef block' fuel' inBlock) := by
  refine .bind_taken .expectKeyword (fun t => .ite (fun _ => .fail_bind) fun _ => ?_) False.elim
  refine .andThen (.weak .expectName) fun name => .bind (tracks_params hle hN) (fun params => ?_) ?_
  · refine .bind (hblock _) (fun b => ?_) fun _ _ => needs_end
    exact .andThen (.weak .expectKeyword) fun _ => .andThen .term fun _ => .node
  · exact fun _ _ => (hlapses _).bind fun _ _ => needs_end

/-! ## Statements that start with a name

A sign behind a name may begin an argument or be a binary operator, which depends on the token behind
the sign. If that token is missing, both readings fail at the end; `NeedsOperand` says so of the one
that was not taken. -/

variable {α β : Type} {may : Prop} {c c' : Cursor}

/-- From a cursor a parser fails because the tokens are at an end. -/
def Stops (ending : Except SyntaxError Token) (p : Parser α) (c : Cursor) : Prop :=
  ∃ e, p.run c = .error e ∧ e.AtEnd ending

/-- What follows a parser that fails at the end is not run. -/
theorem Stops.bind {p : Parser α} {f : α → Parser β} (h : Stops ending p c) :
    Stops ending (p >>= f) c := by
  obtain ⟨e, hrun, he⟩ := h
  exact ⟨e, by rw [StateT.run_bind, hrun]; rfl, he⟩

/-- A parser fails at the end if its second part does. -/
theorem Stops.after {p : Parser α} {f : α → Parser β} {a : α} {c₁ : Cursor}
    (hrun : p.run c = .ok (a, c₁)) (h : Stops ending (f a) c₁) : Stops ending (p >>= f) c := by
  obtain ⟨e, hstops, he⟩ := h
  exact ⟨e, by rw [StateT.run_bind, hrun]; exact hstops, he⟩

/-- A parser that fails at the end is followed by any other one. -/
theorem Stops.follows {p p' : Parser α} {Q : Cursor → Prop} (h : Stops x.ending p c) :
    Follows x may p p' c c' Q := by
  obtain ⟨e, hrun, he⟩ := h
  unfold Follows
  rw [hrun]
  exact .inl he

/-- At the end of the tokens, a parser that needs more fails. -/
theorem stops_of_needs {p : Parser α} (h : Needs ending p) (hc : Spent ending c) :
    Stops ending p c := by
  have hlapses := h c hc
  cases hrun : p.run c with
  | error e =>
    rw [hrun] at hlapses
    exact ⟨e, hrun, hlapses⟩
  | ok r =>
    rw [hrun] at hlapses
    exact hlapses.1.elim

/-- A sign that is the last token needs an operand behind it. -/
def NeedsOperand (ending : Except SyntaxError Token) (p : Parser α) : Prop :=
  ∀ c t, c.rest = [t] → isSign t = true → Spent ending c.advanced → Stops ending p c

/-- The token that is looked at is the first one. -/
theorem run_peek_of_rest {t : Token} {rest : List Token} (h : c.rest = t :: rest) :
    peek.run c = .ok (t, c) := by
  rw [run_peek, Cursor.ahead, h]
  rfl

/-- An expression that is a sign only needs an operand. -/
theorem needsOperand_binary (fuel limit : Nat) : NeedsOperand ending (binary (fuel + 1) limit) := by
  intro c t hrest hsign hspent
  refine .bind (.after (run_peek_of_rest hrest) ?_)
  rw [if_pos hsign]
  refine .after (run_skip (t := t) (by rw [Cursor.ahead, hrest]; rfl)) ?_
  exact stops_of_needs (.bind .term fun _ _ => (needs_unary (needs_primary _) fuel).needs_bind) hspent

/-- Arguments that are a sign only need an operand. -/
theorem NeedsOperand.args {expr : Parser Node} (h : NeedsOperand ending expr) (fuel : Nat) (name : Token) :
    NeedsOperand ending (args expr (fuel + 1) name false) := by
  intro c t hrest hsign hspent
  have hfresh : fresh.run c = .ok ((c.nextId : Int), { c with nextId := c.nextId + 1 }) := rfl
  refine .after hfresh (.bind ?_)
  rw [arguments_succ]
  refine .after (run_peek_of_rest hrest) ?_
  have hnamed : isNamed t = pure false := by
    rw [isNamed, if_neg]
    intro hname
    simp only [Token.isName, Bool.and_eq_true, decide_eq_true_eq] at hname
    simp [isSign, Token.isOp, Token.isKeyword, hname.1] at hsign
    simp [Token.keywords, hsign] at hname
  rw [hnamed, pure_bind]
  refine .bind (.bind (h _ t hrest hsign ?_))
  exact ⟨hspent.rest_eq, hspent.ending_eq, hspent.kind_eq, hspent.text_eq⟩

/-- A call without brackets, from its name on. -/
def command (expr : Parser Node) (fuel : Nat) (name : Token) (argued : Bool) : Parser Node :=
  if argued then do
    skip
    let args ← args expr fuel name false
    let callee ← term name
    let c ← node .call name [callee, args]
    node .callStmt name [c]
  else do
    skip
    let callee ← term name
    let args ← node .args name []
    let c ← node .call name [callee, args]
    node .callStmt name [c]

/-- A statement that starts with a name is told by the token behind the name. -/
theorem nameStmt_eq (expr : Parser Node) (fuel : Nat) (name : Token) :
    nameStmt expr fuel name = (do
      let ahead ← peek 1
      if startsAssignment name ahead then assignment expr
      else if ahead.isOpening "(" then
        skip
        let c ← call expr fuel name
        node .callStmt name [c]
      else startsArgument name ahead >>= command expr fuel name) := rfl

/-- Only behind a sign another token is looked at. -/
theorem startsArgument_of_not_sign (name : Token) {t : Token}
    (h : ¬(t.kind = .op ∧ (t.text = "-" ∨ t.text = "!"))) :
    ∃ argued, startsArgument name t = pure argued := by
  unfold startsArgument
  cases hkind : t.kind with
  | op => exact ⟨false, if_neg fun htext => h ⟨hkind, htext⟩⟩
  | _ => exact ⟨_, rfl⟩

/-- Behind a sign that follows a space, the next token has to stand right beside it. -/
theorem startsArgument_of_sign (name : Token) {t : Token} (hkind : t.kind = .op)
    (htext : t.text = "-" ∨ t.text = "!") :
    startsArgument name t = do
      let after ← peek 2
      return t.line = name.line && t.col > name.col + name.text.utf8ByteSize &&
        after.line = t.line && after.col = t.col + 1 := by
  rw [startsArgument, hkind]
  exact if_pos htext

section Names

variable {expr expr' : Parser Node} (hneeds : Needs x.ending expr)
  (hexpr : Tracks x Any False N 1 expr expr') (hoperand : NeedsOperand x.ending expr)

include hneeds hexpr

/-- A call without brackets is parsed as in the whole text. -/
theorem tracks_command {fuel fuel' : Nat} (hle : fuel ≤ fuel') (hN : N ≤ fuel) (name : Token)
    (argued : Bool) (hP : ∀ l, P l → l ≠ []) :
    Tracks x P False (N + 1) 1 (command expr fuel name argued)
      (command expr' fuel' name argued) := by
  refine .ite (fun _ => ?_) fun _ => ?_
  · refine .bind_taken (.skip_of_ne hP) (fun _ => ?_) False.elim
    refine .andThen (tracks_args hneeds hexpr hle hN name false) fun args => ?_
    exact .andThen .term fun callee => .andThen .node fun c => .node
  · refine .bind_taken (.skip_of_ne hP) (fun _ => ?_) False.elim
    exact .andThen .term fun callee => .andThen .node fun args => .andThen .node fun c => .node

include hoperand

/-- A sign that is the last token is taken for an argument wherever the end of input stands, but then
its operand is missing. -/
theorem tracks_sign {fuel fuel' : Nat} (hle : fuel ≤ fuel') (hN : N ≤ fuel) {name t : Token}
    (hkind : t.kind = .op) (htext : t.text = "-" ∨ t.text = "!") :
    Tracks x (fun l => l[0]? = some name ∧ l[1]? = some t) False (N + 1) 1
      (startsArgument name t >>= command expr fuel name)
      (startsArgument name t >>= command expr' fuel' name) := by
  have hsize : t.text.utf8ByteSize = 1 := by
    rcases htext with h | h <;> rw [h] <;> rfl
  rw [startsArgument_of_sign name hkind htext, bind_assoc, bind_assoc]
  refine .peek_bind (fun l hl => ?_) (fun after _ => ?_) fun e nl _ _ _ hending => ?_
  · exact (List.getElem?_eq_some_iff.mp hl.2).1
  · rw [pure_bind, pure_bind]
    exact tracks_command hneeds hexpr hle hN name _ fun l hl => ne_nil_of_head (P := Any) l ⟨trivial, hl.1.1⟩
  rw [pure_bind, pure_bind]
  -- the sign is the last token, and the end of input stands right behind it
  rintro c c' hprolongs ⟨⟨hname, hsign⟩, hlength⟩ hlt
  have hrest : c.rest = [name, t] := by
    match hc : c.rest, hname, hsign, hlength with
    | [_, _], rfl, rfl, _ => rfl
  obtain ⟨hline, hcol⟩ := hprolongs.attached [name] hending hrest
  rw [hsize] at hcol
  -- the sign belongs to an argument, which is missing, if a space stands in front of it
  by_cases hspaced : t.line = name.line ∧ t.col > name.col + name.text.utf8ByteSize
  · obtain ⟨fuel, rfl⟩ : ∃ m, fuel = m + 1 := ⟨fuel - 1, by omega⟩
    refine Stops.follows ?_
    unfold command
    rw [if_pos (by simp [hspaced, hline, hcol])]
    refine .after (run_skip (t := name) (by rw [Cursor.ahead, hrest]; rfl)) (.bind ?_)
    have hrest₁ : c.advanced.rest = [t] := by
      show c.rest.tail = [t]
      rw [hrest]
      rfl
    refine hoperand.args fuel name c.advanced t hrest₁ ?_ ?_
    · simpa [isSign, Token.isOp, hkind] using .inl htext
    · have hprolongs₁ := hprolongs.advanced (by rw [hrest]; exact List.cons_ne_nil _ _)
      refine (hprolongs₁.advanced (by rw [hrest₁]; exact List.cons_ne_nil _ _)).spent ?_
      show c.advanced.rest.tail = []
      rw [hrest₁]
      rfl
  · -- whatever stands behind the sign
    have hunspaced : ∀ b b' : Bool, (decide (t.line = name.line) &&
        decide (t.col > name.col + name.text.utf8ByteSize) && b && b') = false := by
      intro b b'
      rw [← Bool.decide_and, decide_eq_false hspaced, Bool.false_and, Bool.false_and]
    rw [hunspaced, hunspaced]
    exact tracks_command (P := fun l => l ≠ []) hneeds hexpr hle hN name false (fun _ => id) c c' hprolongs
      (by rw [hrest]; exact List.cons_ne_nil _ _) hlt

/-- A statement that starts with a name is parsed as in the whole text. -/
theorem tracks_nameStmt {fuel fuel' : Nat} (hle : fuel ≤ fuel') (hN : N ≤ fuel) (name : Token) :
    Tracks x (fun l => P l ∧ l[0]? = some name) False (N + 1) 1 (nameStmt expr fuel name)
      (nameStmt expr' fuel' name) := by
  rw [nameStmt_eq, nameStmt_eq]
  refine .peek_bind (fun l hl => ?_) (fun ahead _ => ?_) fun e nl he _ hnl _ => ?_
  · exact (List.getElem?_eq_some_iff.mp hl.2).1
  · refine .ite (fun _ => tracks_assignment hneeds hexpr) fun _ => .ite (fun _ => ?_) fun _ => ?_
    · refine .bind_taken (.skip_of_ne fun l hl => ne_nil_of_head l hl.1) (fun _ => ?_) False.elim
      exact .andThen (tracks_call hneeds hexpr hle hN name) fun _ => .node
    have hcommand : ∀ argued, Tracks x (fun l => (P l ∧ l[0]? = some name) ∧ l[1]? = some ahead)
        False (N + 1) 1 (command expr fuel name argued) (command expr' fuel' name argued) :=
      fun argued => tracks_command hneeds hexpr hle hN name argued fun l hl => ne_nil_of_head l hl.1
    -- the token behind a sign is looked at too
    by_cases hsign : ahead.kind = .op ∧ (ahead.text = "-" ∨ ahead.text = "!")
    · exact (tracks_sign hneeds hexpr hoperand hle hN hsign.1 hsign.2).mono (fun l hl => ⟨hl.1.2, hl.2⟩)
        id (Nat.le_refl _) (Nat.le_refl _)
    · obtain ⟨argued, hargued⟩ := startsArgument_of_not_sign name hsign
      rw [hargued, pure_bind, pure_bind]
      exact hcommand argued
  · -- neither the end of input nor a line feed goes on with the name
    have hassign : startsAssignment name e = false ∧ startsAssignment name nl = false := by
      simp [startsAssignment, Token.isAssign, Token.isOpening, he, kind_of_isNewline hnl]
    have hround : e.isOpening "(" = false ∧ nl.isOpening "(" = false := by
      simp [Token.isOpening, he, kind_of_isNewline hnl]
    have hargument : startsArgument name e = pure false ∧ startsArgument name nl = pure false := by
      simp [startsArgument, he, kind_of_isNewline hnl]
    rw [hassign.1, hassign.2, hround.1, hround.2, hargument.1, hargument.2]
    exact tracks_command hneeds hexpr hle hN name false fun l hl => ne_nil_of_head l hl.1

end Names

/-! ## Programs

At the top there is nothing that has to be closed, so a beginning may be a program. That is no error,
and the statement is about errors. -/

/-- At the end of the tokens, a statement is missing. -/
theorem needs_stmt (fuel : Nat) (ctx : Context) : Needs ending (stmt fuel ctx) := by
  cases fuel with
  | zero => exact .tooDeep
  | succ fuel =>
    refine .peek_bind fun e he _ => ?_
    rw [he]
    exact .fail he

/-- A statement is parsed as in the whole text, in every context. -/
theorem tracks_stmt {fuel fuel' : Nat} (hle : fuel ≤ fuel') (ctx : Context) :
    Tracks x Any False fuel 1 (stmt fuel ctx) (stmt fuel' ctx) := by
  -- blocks are parsed with less fuel; the kind of the first token tells the production
  induction fuel generalizing fuel' ctx with
  | zero => exact .none
  | succ fuel ih =>
    obtain ⟨fuel', rfl⟩ : ∃ m, fuel' = m + 1 := ⟨fuel' - 1, by omega⟩
    have hneeds : Needs x.ending (expr (fuel + 1)) := needs_binary _ _
    have hexpr : Tracks x Any False fuel 1 (expr (fuel + 1)) (expr (fuel' + 1)) :=
      (tracks_binary hle _).weaken (Nat.le_succ fuel)
    have hlapses : ∀ (ctx : Context) stops, Lapses x.ending True (body (stmt fuel ctx) (fuel + 1) stops) :=
      fun ctx => lapses_body (stmt fuel ctx) (fuel + 1)
    have hblock : ∀ (ctx : Context) stops, Tracks x Any True fuel 0
        (body (stmt fuel ctx) (fuel + 1) stops) (body (stmt fuel' ctx) (fuel' + 1) stops) :=
      fun ctx => tracks_body (ih (by omega) ctx) hle (Nat.le_succ fuel)
    have hN := Nat.le_succ fuel
    refine .peek_bind_of_lapses (needs_stmt (fuel + 1) ctx) fun t _ => ?_
    cases hkind : t.kind with
    | pir => exact .bind_taken (.skip_of_ne ne_nil_of_head) (fun _ => .andThen .term fun _ => .node) False.elim
    | global =>
      refine .bind_taken (.skip_of_ne ne_nil_of_head) (fun _ => .next_bind_weak (fun op _ => ?_) ?_) False.elim
      · refine .ite (fun _ => .fail_bind) fun _ => .andThen .term fun _ => .andThen .term fun _ => ?_
        exact .andThen hexpr.weak fun _ => .node
      · intro e he _
        rw [if_pos (by simp [Token.isOp, he])]
        exact .needs_bind (.fail he)
    | ident =>
      dsimp only
      split
      · exact tracks_funcDef (hlapses _) (hblock _) hle hN ctx.inBlock
      · exact tracks_ifStmt hneeds hexpr (hlapses _) (hblock _) hle hN
      · exact tracks_unlessStmt hneeds hexpr (hlapses _) (hblock _)
      · exact tracks_whileLoop hneeds hexpr (hblock _)
      · exact tracks_forLoop hneeds hexpr (hblock _) hle hN
      · refine .bind_taken (.skip_of_ne ne_nil_of_head) (fun _ => ?_) False.elim
        exact .ite (fun _ => .node) fun _ => .fail
      · refine .bind_taken (.skip_of_ne ne_nil_of_head) (fun _ => ?_) False.elim
        refine .peek_bind (fun _ _ => Nat.zero_le _) (fun after _ => ?_) fun e nl he _ hnl _ => ?_
        · exact .ite (fun _ => .node) fun _ => .andThen hexpr.any.weak fun _ => .node
        · rw [if_pos (by simp [Token.endsStmt, he]), if_pos (by simp [Token.endsStmt, kind_of_isNewline hnl])]
          exact .node
      · refine .bind_taken (.skip_of_ne ne_nil_of_head) (fun _ => .next_bind_weak (fun name _ => ?_) ?_)
          False.elim
        · exact .ite (fun _ => .fail_bind) fun _ => .andThen .term fun _ => .node
        · intro e he _
          rw [if_pos (by rw [he]; decide)]
          exact .needs_bind (.fail he)
      · refine .ite (fun _ => ?_) fun _ => .fail
        exact tracks_nameStmt hneeds hexpr (needsOperand_binary fuel _) hle hN t
    | _ => exact .fail

/-- A program is parsed as in the whole text, or comes to the end of its tokens. -/
theorem tracks_program {fuel fuel' : Nat} (hle : fuel ≤ fuel') :
    Tracks x Any True fuel 0 (program fuel) (program fuel') := by
  have hend : Lapses x.ending True (program fuel) :=
    .peek_bind fun _ _ _ => (lapses_stmtList _ fuel []).bind fun _ _ => .node
  refine .peek_bind_of_lapses hend fun first _ => ?_
  exact .bind (tracks_stmtList (tracks_stmt hle {}) hle (Nat.le_refl fuel) []) (fun _ => .lax .node)
    fun _ _ => .node

end Parser

/-- An error that does not come from the end of the tokens stays if more tokens stand behind them. -/
theorem parseFrom_of_prolongs {x : Continued} {c c' : Cursor}
    (h : Prolongs x c c') {e : SyntaxError} (herror : parseFrom c = .error e)
    (he : ¬e.AtEnd x.ending) : parseFrom c' = .error e := by
  -- the longer text comes with more fuel
  have hlength : c.rest.length + 1 ≤ c'.rest.length + 1 := by
    rw [h.rest_eq, List.length_append]
    omega
  have hfollows := Parser.tracks_program hlength c c' h trivial (Nat.lt_succ_self _)
  have hrun : (Parser.program (c.rest.length + 1)).run c = .error e := by
    unfold parseFrom at herror
    cases hrun : (Parser.program (c.rest.length + 1)).run c with
    | error e' =>
      rw [hrun] at herror
      cases herror
      rfl
    | ok r =>
      rw [hrun] at herror
      cases herror
  unfold Parser.Follows at hfollows
  rw [hrun] at hfollows
  unfold parseFrom
  rw [hfollows.resolve_left he]
  rfl

/-- An error at a token that is there is final: whatever comes after a line feed, the error is the
same. -/
theorem parse_error_final (read more : List Lexeme) (newline : Token) (bad : Option BadLexeme)
    (e : SyntaxError) (hread : ∀ t ∈ Lexed.tokens ⟨read, none⟩, t.kind ≠ .eof)
    (herror : parseFrom (.start ⟨read, none⟩) = .error e) (he : e.token.kind ≠ .eof)
    (hnewline : newline.isNewline = true) :
    parseFrom (.start ⟨read ++ .token newline :: more, bad⟩) = .error e := by
  have hprolongs : Prolongs (.lines _ newline (Lexed.tokens ⟨more, none⟩) _ hread hnewline)
      (.start ⟨read, none⟩) (.start ⟨read ++ .token newline :: more, bad⟩) :=
    ⟨List.suffix_refl _, rfl, by simp [Cursor.start, Lexed.tokens, Continued.lines], rfl, rfl⟩
  refine parseFrom_of_prolongs hprolongs herror ?_
  rintro (heof | hending)
  · exact he heof
  · cases hending

/-- `puts -)` fails at the bracket, whatever stands in the next line. -/
theorem parse_error_final_bracket :
    let bracket : Token := ⟨.closing, ")", 1, 7⟩
    let read : List Lexeme := [.token ⟨.ident, "puts", 1, 1⟩, .token ⟨.op, "-", 1, 6⟩, .token bracket]
    parseFrom (.start ⟨read ++ .token ⟨.semi, "\n", 1, 8⟩ :: [.token ⟨.int, "1", 2, 1⟩], none⟩) =
      .error ⟨bracket, .expression⟩ :=
  parse_error_final _ _ _ _ _ (by decide) (by rfl) (by decide) (by decide)

end ScriptPir

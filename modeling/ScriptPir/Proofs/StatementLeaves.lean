import ScriptPir.Proofs.Leaves
import ScriptPir.Proofs.StatementParsing

/-!
# What the trees of statements keep of the tokens

The module on expressions, continued: all productions for statements, and whole programs.

Main statement: `leaves_of_parse`.

* `left_stmt` — a statement keeps what was taken for it, but for the tokens without leaves. It is proved
  by induction on the fuel, and every construct before it takes the parser of its blocks as an argument,
  with `Leaves` assumed of it.
* `left_program` — a program keeps what stands in front of the end of input.

Nothing is said here about the order of ids. The terminals of a tree come in the order of its children,
and that is the order of the tokens in every production but one: the name of a function is made a leaf
behind the body.
-/

namespace ScriptPir

namespace Parser

variable {expr : Parser Node} {block : List String → Parser Node}

/-! ## Assignments

An assignment keeps its name and its equals sign, in front of what its value keeps. Only the brackets
of a new array are left out. -/

/-- An assignment to an element keeps its name and what was taken behind it. -/
theorem left_elementAssign (hexpr : Leaves expr) {name : Token} (hname : name.isName = true) {c : Cursor}
    (hc : c.Closed) :
    (do
      let target ← index expr name
      let op ← next
      if !op.isOp "=" then fail op (.elementAssign target.text)
      let opTerm ← term op
      let e ← expr
      node .indexAssign name [target, opTerm, e] : Parser Node).Yields c
      fun n c' => LeftBehind name c n.leaves c' := by
  refine yields_bind (left_index hexpr hname hc) ?_
  intro target c₁ htarget
  have hc₁ := htarget.closed hc
  refine yields_bind (took_next hc₁) ?_
  rintro op c₂ ⟨-, htook⟩
  refine yields_ite (fun _ => yields_fail_bind) fun hequals => ?_
  -- an equals sign is kept
  have hkept := @Token.isKept_of_isOp op "=" (by simpa using hequals) (by decide)
  have hop := Left.of_kept (htook (Token.ne_eof_of_kept hkept)) hkept
  refine yields_bind (left_term op c₂) ?_
  rintro opTerm c₃ ⟨hopTerm, hterm⟩
  have hleft := hop.trans hterm
  refine yields_bind (hexpr c₃ (hleft.closed hc₁)) ?_
  intro e c₄ he
  refine (left_node .indexAssign name [target, opTerm, e] c₄ (by decide)).mono ?_
  rintro n c₅ ⟨hn, hnode⟩
  rw [hn]
  simpa [hopTerm] using htarget.trans ((hleft.trans he).trans hnode)

/-- The operator was taken before, and the opening bracket is the next token. -/
theorem left_arrayInit {name op t : Token} (hequals : op.isOp "=" = true) (ht : t.isOpening "[" = true)
    {c₀ c : Cursor} (hc : c.Closed) (hop : Took c₀ [op] c) (hahead : c.ahead = .ok t) :
    (do
      skip
      let closing ← next
      if ¬(closing.kind = .closing ∧ closing.text = "]") then fail closing .arrayNotEmpty
      let nameTerm ← term name
      let opTerm ← term op
      node .arrayInit name [nameTerm, opTerm] : Parser Node).Yields c
      fun n c' => n.leaves = [name, op] ∧ Left c₀ [op] c' := by
  refine yields_bind (took_skip hc hahead (Token.ne_eof_of_isBracket (Token.isBracket_of_isOpening ht))) ?_
  intro _ c₁ hopening
  refine yields_bind (took_next (hopening.closed hc)) ?_
  rintro closing c₂ ⟨-, htook⟩
  refine yields_ite (fun _ => yields_fail_bind) fun hclosing => ?_
  have hclosing : closing.isClosing "]" = true := by simpa [Token.isClosing] using hclosing
  have htook := htook (Token.ne_eof_of_isBracket (Token.isBracket_of_isClosing hclosing))
  refine yields_bind (left_term name c₂) ?_
  rintro nameTerm c₃ ⟨hnameTerm, hterm⟩
  refine yields_bind (left_term op c₃) ?_
  rintro opTerm c₄ ⟨hopTerm, hterm'⟩
  refine (left_node .arrayInit name [nameTerm, opTerm] c₄ (by decide)).mono ?_
  rintro n c₅ ⟨hn, hnode⟩
  -- the brackets have no leaves, which is one rule together with the equals sign in front
  have harray : Left c₀ [op] c₂ :=
    ⟨[op, t, closing], hop.trans (hopening.trans htook), .emptyArray hequals ht hclosing⟩
  exact ⟨by simp [hn, hnameTerm, hopTerm], harray.trans ((hterm.trans hterm').trans hnode)⟩

/-- An assignment from a global keeps its three tokens. -/
theorem left_globalGet {name op t : Token} (ht : t.kind = .global) {c : Cursor} (hc : c.Closed)
    (hahead : c.ahead = .ok t) :
    (do
      skip
      let nameTerm ← term name
      let opTerm ← term op
      let global ← term t
      node .globalGet name [nameTerm, opTerm, global] : Parser Node).Yields c
      fun n c' => n.leaves = [name, op, t] ∧ Left c [t] c' := by
  have hkept : t.isKept = true := by simp [Token.isKept, ht]
  refine yields_bind (took_skip hc hahead (Token.ne_eof_of_kept hkept)) ?_
  intro _ c₁ hskip
  refine yields_bind (left_term name c₁) ?_
  rintro nameTerm c₂ ⟨hnameTerm, hterm⟩
  refine yields_bind (left_term op c₂) ?_
  rintro opTerm c₃ ⟨hopTerm, hterm'⟩
  refine yields_bind (left_term t c₃) ?_
  rintro global c₄ ⟨hglobal, hterm''⟩
  refine (left_node .globalGet name [nameTerm, opTerm, global] c₄ (by decide)).mono ?_
  rintro n c₅ ⟨hn, hnode⟩
  refine ⟨by simp [hn, hnameTerm, hopTerm, hglobal], ?_⟩
  exact (Left.of_kept hskip hkept).trans (((hterm.trans hterm').trans hterm'').trans hnode)

/-- An assignment of a value keeps the name, the equals sign and what the expression keeps. -/
theorem left_valueAssign (hexpr : Leaves expr) (name op : Token) {c : Cursor} (hc : c.Closed) :
    (do
      skipNewlines
      let nameTerm ← term name
      let opTerm ← term op
      let e ← expr
      node .assign name [nameTerm, opTerm, e] : Parser Node).Yields c
      fun n c' => ∃ ls, n.leaves = name :: op :: ls ∧ Left c ls c' := by
  refine yields_bind (left_skipNewlines c) ?_
  intro _ c₁ hlines
  refine yields_bind (left_term name c₁) ?_
  rintro nameTerm c₂ ⟨hnameTerm, hterm⟩
  refine yields_bind (left_term op c₂) ?_
  rintro opTerm c₃ ⟨hopTerm, hterm'⟩
  have hleft := (hlines.trans hterm).trans hterm'
  refine yields_bind (hexpr c₃ (hleft.closed hc)) ?_
  intro e c₄ he
  refine (left_node .assign name [nameTerm, opTerm, e] c₄ (by decide)).mono ?_
  rintro n c₅ ⟨hn, hnode⟩
  exact ⟨e.leaves, by simp [hn, hnameTerm, hopTerm], by simpa using (hleft.trans he).trans hnode⟩

/-- Assignments of all sorts keep what was taken. -/
theorem left_assignment (hexpr : Leaves expr) {c : Cursor} (hc : c.Closed) {t : Token}
    (ht : c.ahead = .ok t) (hname : t.isName = true) :
    (assignment expr).Yields c fun n c' => Left c n.leaves c' := by
  refine yields_bind (took_next hc) ?_
  rintro name c₁ ⟨hname', htook⟩
  obtain rfl : t = name := Except.ok.inj (ht.symm.trans hname')
  have hkeptName := Token.isKept_of_isName hname
  have htook := htook (Token.ne_eof_of_kept hkeptName)
  have hc₁ := htook.closed hc
  refine yields_bind (yields_peek 0 c₁) ?_
  rintro _ _ ⟨rfl, -⟩
  refine yields_ite (fun _ => ?_) fun _ => ?_
  · exact (left_elementAssign hexpr hname hc₁).mono fun n c' => .of_behind htook
  refine yields_bind (took_next hc₁) ?_
  rintro op c₂ ⟨-, htook'⟩
  refine yields_ite (fun _ => yields_fail_bind) fun hassign => ?_
  have hassign : op.isAssign = true := by simpa using hassign
  have hkeptOp := Token.isKept_of_isAssign hassign
  have htook' := htook' (Token.ne_eof_of_kept hkeptOp)
  have hc₂ := htook'.closed hc₁
  have hleft := Left.of_kept htook hkeptName
  -- the token looked at is the operator itself unless that is a plain equals sign
  have hlook : (if op.text = "=" then peek else pure op).Yields c₂ fun u c' =>
      c₂ = c' ∧ (u ≠ op → op.text = "=" ∧ c₂.ahead = .ok u) := by
    refine yields_ite (fun htext => ?_) fun _ => yields_pure ⟨rfl, fun h => absurd rfl h⟩
    exact (yields_peek 0 c₂).mono fun u c' h => ⟨h.1, fun _ => ⟨htext, h.2⟩⟩
  have hopKind : op.kind = .op := by
    simp only [Token.isAssign, Bool.and_eq_true, decide_eq_true_eq] at hassign
    exact hassign.1
  refine yields_ite_bind hlook ?_
  rintro u _ ⟨rfl, hu⟩
  refine yields_ite (fun hopening => ?_) fun _ => ?_
  · have hne : u ≠ op := by
      rintro rfl
      simp [Token.isOpening, hopKind] at hopening
    obtain ⟨htext, hahead⟩ := hu hne
    refine (left_arrayInit (isOp_equals hassign htext) hopening hc₂ htook' hahead).mono ?_
    rintro n c' ⟨hn, harray⟩
    rw [hn]
    exact hleft.trans harray
  have hglobal : (if u.kind = .global then Token.endsStmt <$> peek 1 else pure false).Yields c₂
      fun b c' => c₂ = c' ∧ (b = true → u.kind = .global) := by
    refine yields_ite (fun hkind => ?_) fun _ => yields_pure ⟨rfl, fun h => absurd h Bool.false_ne_true⟩
    exact yields_map (yields_peek 1 c₂) fun _ c' h => ⟨h.1, fun _ => hkind⟩
  refine yields_ite_bind hglobal ?_
  rintro b _ ⟨rfl, hb⟩
  have hleft' := hleft.trans (Left.of_kept htook' hkeptOp)
  refine yields_ite (fun htrue => ?_) fun _ => ?_
  · have hne : u ≠ op := by
      rintro rfl
      have hkind := hb htrue
      rw [hopKind] at hkind
      cases hkind
    refine (left_globalGet (hb htrue) hc₂ (hu hne).2).mono ?_
    rintro n c' ⟨hn, hglobal⟩
    rw [hn]
    exact hleft'.trans hglobal
  · refine (left_valueAssign hexpr t op hc₂).mono ?_
    rintro n c' ⟨ls, hn, hvalue⟩
    rw [hn]
    exact hleft'.trans hvalue

/-! ## Loop headers and conditions

Commas, semicolons and the words in front of a condition are not kept: none of them is a token with a
leaf. -/

/-- The assignments of a loop header keep what was taken but the commas. -/
theorem left_forAssignments (hexpr : Leaves expr) (fuel : Nat) {c : Cursor} (hc : c.Closed) :
    (forAssignments expr fuel).Yields c fun ns c' => Left c (Node.leavesAll ns) c' := by
  induction fuel generalizing c with
  | zero => exact yields_bind (yields_peek 0 c) fun _ _ _ => yields_fail
  | succ fuel ih =>
    refine yields_bind (yields_peek 0 c) ?_
    rintro t _ ⟨rfl, ht⟩
    -- an assignment only starts with a name, and nothing is taken to see that
    have hstarts : (if t.isName then startsAssignment t <$> peek 1 else pure false).Yields c
        fun b c' => c = c' ∧ (b = true → t.isName = true) := by
      refine yields_ite (fun hname => ?_) fun _ => yields_pure ⟨rfl, fun h => absurd h Bool.false_ne_true⟩
      exact yields_map (yields_peek 1 c) fun _ c' h => ⟨h.1, fun _ => hname⟩
    refine yields_ite_bind hstarts ?_
    rintro b _ ⟨rfl, hb⟩
    refine yields_ite (fun _ => yields_fail_bind) fun htrue => ?_
    refine yields_bind (left_assignment hexpr hc ht (hb (by simpa using htrue))) ?_
    intro a c₁ ha
    refine yields_bind (yields_peek 0 c₁) ?_
    rintro after _ ⟨rfl, hafter⟩
    refine yields_ite (fun _ => yields_pure (by simpa using ha)) fun hcomma => ?_
    have hmute : after.isMute = true := by simp at hcomma; simp [Token.isMute, hcomma]
    refine yields_bind (took_skip (ha.closed hc) hafter (Token.ne_eof_of_mute hmute)) ?_
    intro _ c₂ hskip
    have hleft := ha.trans (Left.of_mute hskip hmute)
    refine yields_bind (ih (hleft.closed hc)) ?_
    intro as c₃ has
    exact yields_pure (by simpa using hleft.trans has)

/-- A clause of a loop header keeps what its assignments keep. -/
theorem left_forClause (hexpr : Leaves expr) (fuel : Nat) (kind : Kind) (close : String)
    (hkind : kind ≠ .terminal) : Leaves (forClause expr fuel kind close) := by
  intro c hc
  refine yields_bind (yields_peek 0 c) ?_
  rintro t _ ⟨rfl, -⟩
  refine yields_bind (left_fresh c) ?_
  intro id c₁ hid
  refine yields_ite (fun _ => yields_pure ?_) fun _ => ?_
  · rw [Node.leaves_mk hkind]
    exact hid
  · refine yields_bind (left_forAssignments hexpr fuel (hid.closed hc)) ?_
    intro as c₂ has
    refine yields_pure ?_
    rw [Node.leaves_mk hkind]
    exact hid.trans has

/-- A condition keeps what its expression keeps. -/
theorem left_condition (hexpr : Leaves expr) {word : String}
    (hword : word ∈ Token.keywords ∧ word ∉ Token.operandWords) : Leaves (condition expr word) := by
  intro c hc
  refine yields_bind (yields_peek 0 c) ?_
  rintro t _ ⟨rfl, -⟩
  refine yields_bind (hexpr c hc) ?_
  intro e c₁ he
  -- whether a keyword ends the condition or a line feed does
  have hnode : ∀ c₂, Left c₁ [] c₂ → (node .cond t [e]).Yields c₂ fun n c' => Left c n.leaves c' := by
    intro c₂ hafter
    refine (left_node .cond t [e] c₂ (by decide)).mono ?_
    rintro n c₃ ⟨hn, hnode⟩
    rw [hn]
    simpa using (he.trans hafter).trans hnode
  refine yields_bind (yields_peek 0 c₁) ?_
  rintro after _ ⟨rfl, hafter⟩
  refine yields_ite (fun hkeyword => ?_) fun _ => yields_ite (fun _ => yields_fail_bind) fun _ => ?_
  · have hmute := Token.isMute_of_isKeyword hkeyword hword
    refine yields_bind (took_skip (he.closed hc) hafter (Token.ne_eof_of_mute hmute)) ?_
    exact fun _ c₂ hskip => hnode c₂ (.of_mute hskip hmute)
  · exact hnode c₁ (.refl c₁)

/-! ## Blocks

A list of statements is followed to the word at which it stops. Line feeds and semicolons between
statements are no leaves. -/

/-- A list ends where it sees what ends it. -/
theorem left_stmts {stmt : Parser Node} (hstmt : Leaves stmt) (stops : List String) (fuel : Nat)
    {c : Cursor} (hc : c.Closed) :
    (stmts stmt stops fuel).Yields c fun ns c' =>
      Left c (Node.leavesAll ns) c' ∧ ∃ t, c'.ahead = .ok t ∧ endsBlock stops t = true := by
  -- on the fuel: a separator, or a statement with what separates it from the rest
  induction fuel generalizing c with
  | zero => exact yields_bind (yields_peek 0 c) fun _ _ _ => yields_fail
  | succ fuel ih =>
    have hmute : ∀ {t : Token}, t.kind = .semi → t.isMute = true := fun h => by simp [Token.isMute, h]
    refine yields_bind (yields_peek 0 c) ?_
    rintro t _ ⟨rfl, ht⟩
    refine yields_ite (fun hsemi => ?_) fun _ => yields_ite (fun hends => yields_pure ?_) fun _ => ?_
    · refine yields_bind (took_skip hc ht (Token.ne_eof_of_mute (hmute hsemi))) ?_
      intro _ c₁ hskip
      have hleft := Left.of_mute hskip (hmute hsemi)
      exact (ih (hleft.closed hc)).mono fun ns c₂ h => ⟨hleft.trans h.1, h.2⟩
    · exact ⟨.refl c, t, ht, hends⟩
    · refine yields_bind (hstmt c hc) ?_
      intro n c₁ hn
      have hrest : ∀ c₂, Left c₁ [] c₂ → (do return n :: (← stmts stmt stops fuel)).Yields c₂
          fun ns c' => Left c (Node.leavesAll ns) c' ∧
            ∃ t, c'.ahead = Except.ok t ∧ endsBlock stops t = true := by
        intro c₂ hafter
        have hleft := hn.trans hafter
        refine yields_bind (ih (hleft.closed hc)) ?_
        rintro ns c₃ ⟨hns, hend⟩
        exact yields_pure ⟨by simpa using hleft.trans hns, hend⟩
      refine yields_bind (yields_peek 0 c₁) ?_
      rintro after _ ⟨rfl, hafter⟩
      refine yields_ite (fun hsemi => ?_) fun _ => yields_ite (fun _ => yields_fail_bind) fun _ => ?_
      · refine yields_bind (took_skip (hn.closed hc) hafter (Token.ne_eof_of_mute (hmute hsemi))) ?_
        exact fun _ c₂ hskip => hrest c₂ (.of_mute hskip (hmute hsemi))
      · exact hrest c₁ (.refl c₁)

/-- A list of statements keeps what the statements keep, and a token that ends a block stands behind it.
-/
theorem left_stmtList {stmt : Parser Node} (hstmt : Leaves stmt) (fuel : Nat) (stops : List String)
    {c : Cursor} (hc : c.Closed) :
    (stmtList stmt fuel stops).Yields c fun n c' =>
      Left c n.leaves c' ∧ ∃ t, c'.ahead = .ok t ∧ endsBlock stops t = true := by
  refine yields_bind (yields_peek 0 c) ?_
  rintro t _ ⟨rfl, -⟩
  refine yields_bind (left_stmts hstmt stops fuel hc) ?_
  rintro ns c₁ ⟨hns, hend⟩
  refine ((left_node .stmtList t ns c₁ (by decide)).and (ahead_of_node .stmtList t ns c₁)).mono ?_
  rintro n c₂ ⟨⟨hn, hnode⟩, hahead⟩
  rw [hn, hahead]
  exact ⟨by simpa using hns.trans hnode, hend⟩

/-- The body of a construct keeps what its statements keep. -/
theorem left_body {stmt : Parser Node} (hstmt : Leaves stmt) (fuel : Nat) (stops : List String) :
    Leaves (body stmt fuel stops) := by
  intro c hc
  refine yields_bind (yields_peek 0 c) ?_
  rintro t _ ⟨rfl, -⟩
  refine yields_bind (left_stmtList hstmt fuel stops hc) ?_
  rintro list c₁ ⟨hlist, -⟩
  refine (left_node .body t [list] c₁ (by decide)).mono ?_
  rintro n c₂ ⟨hn, hnode⟩
  rw [hn]
  simpa using hlist.trans hnode

/-! ## Branches and loops

All of these have keywords around conditions and blocks. As keywords are not kept, such a tree keeps
what its parts keep, in the order of the source. -/

/-- A keyword that is no operand is taken, and no leaf is made of it. -/
theorem left_keyword {word : String} (hword : word ∈ Token.keywords ∧ word ∉ Token.operandWords)
    {c : Cursor} (hc : c.Closed) : (expectKeyword word).Yields c fun _ c' => Left c [] c' := by
  refine (took_expectKeyword word hc).mono ?_
  rintro t c' ⟨hkeyword, htook⟩
  exact .of_mute htook (Token.isMute_of_isKeyword hkeyword hword)

/-- A keyword that was seen ahead is left out. -/
theorem left_skipKeyword {word : String} (hword : word ∈ Token.keywords ∧ word ∉ Token.operandWords)
    {c : Cursor} (hc : c.Closed) {t : Token} (ht : c.ahead = .ok t) (hkeyword : t.isKeyword word = true) :
    skip.Yields c fun _ c' => Left c [] c' := by
  have hmute := Token.isMute_of_isKeyword hkeyword hword
  exact (took_skip hc ht (Token.ne_eof_of_mute hmute)).mono fun _ _ h => .of_mute h hmute

/-- Further arms with a condition keep what their conditions and bodies keep. -/
theorem left_elsifArms (hexpr : Leaves expr) (hblock : ∀ stops, Leaves (block stops)) (fuel : Nat)
    {c : Cursor} (hc : c.Closed) :
    (elsifArms expr block fuel).Yields c fun ns c' => Left c (Node.leavesAll ns) c' := by
  induction fuel generalizing c with
  | zero => exact yields_bind (yields_peek 0 c) fun _ _ _ => yields_fail
  | succ fuel ih =>
    refine yields_bind (yields_peek 0 c) ?_
    rintro t _ ⟨rfl, ht⟩
    refine yields_ite (fun hkeyword => ?_) fun _ => yields_pure (.refl c)
    refine yields_bind (left_skipKeyword (by decide) hc ht hkeyword) ?_
    intro _ c₁ hskip
    refine yields_bind (left_condition hexpr (by decide) c₁ (hskip.closed hc)) ?_
    intro cond c₂ hcond
    have hleft₂ := hskip.trans hcond
    refine yields_bind (hblock _ c₂ (hleft₂.closed hc)) ?_
    intro b c₃ hb
    refine yields_bind (left_node .elsifArm t [cond, b] c₃ (by decide)) ?_
    rintro arm c₄ ⟨harm, hnode⟩
    -- the arm as a whole: its keyword, its condition and its body
    have hleft₄ : Left c arm.leaves c₄ := by
      rw [harm]
      simpa using (hleft₂.trans hb).trans hnode
    refine yields_bind (ih (hleft₄.closed hc)) ?_
    intro arms c₅ harms
    exact yields_pure (hleft₄.trans harms)

/-- The last arm, if there is one, keeps what its body keeps. -/
theorem left_elseArm (hblock : ∀ stops, Leaves (block stops)) {c : Cursor} (hc : c.Closed) :
    (elseArm block).Yields c fun ns c' => Left c (Node.leavesAll ns) c' := by
  refine yields_bind (yields_peek 0 c) ?_
  rintro t _ ⟨rfl, ht⟩
  refine yields_ite (fun hkeyword => ?_) fun _ => yields_pure (.refl c)
  refine yields_bind (left_skipKeyword (by decide) hc ht hkeyword) ?_
  intro _ c₁ hskip
  refine yields_bind (hblock _ c₁ (hskip.closed hc)) ?_
  intro b c₂ hb
  refine yields_bind (left_node .elseArm t [b] c₂ (by decide)) ?_
  rintro arm c₃ ⟨harm, hnode⟩
  exact yields_pure (by simpa [harm] using (hskip.trans hb).trans hnode)

/-- A branch keeps what its condition, its body and its further arms keep. -/
theorem left_ifStmt (hexpr : Leaves expr) (hblock : ∀ stops, Leaves (block stops)) (fuel : Nat) :
    Leaves (ifStmt expr block fuel) := by
  intro c hc
  -- part by part, with what is left so far in front
  refine yields_bind (left_keyword (by decide) hc) ?_
  intro t c₁ hif
  refine yields_bind (left_condition hexpr (by decide) c₁ (hif.closed hc)) ?_
  intro cond c₂ hcond
  have hleft₂ := hif.trans hcond
  refine yields_bind (hblock _ c₂ (hleft₂.closed hc)) ?_
  intro b c₃ hb
  have hleft₃ := hleft₂.trans hb
  refine yields_bind (left_elsifArms hexpr hblock fuel (hleft₃.closed hc)) ?_
  intro arms c₄ harms
  have hleft₄ := hleft₃.trans harms
  refine yields_bind (left_elseArm hblock (hleft₄.closed hc)) ?_
  intro last c₅ hlast
  have hleft₅ := hleft₄.trans hlast
  refine yields_bind (left_keyword (by decide) (hleft₅.closed hc)) ?_
  intro _ c₆ hend
  refine (left_node .ifStmt t _ c₆ (by decide)).mono ?_
  rintro n c₇ ⟨hn, hnode⟩
  rw [hn]
  simpa using hleft₅.trans (hend.trans hnode)

/-- A negated branch keeps what its condition, its body and its last arm keep. -/
theorem left_unlessStmt (hexpr : Leaves expr) (hblock : ∀ stops, Leaves (block stops)) :
    Leaves (unlessStmt expr block) := by
  intro c hc
  refine yields_bind (left_keyword (by decide) hc) ?_
  intro t c₁ hunless
  refine yields_bind (left_condition hexpr (by decide) c₁ (hunless.closed hc)) ?_
  intro cond c₂ hcond
  have hleft₂ := hunless.trans hcond
  refine yields_bind (hblock _ c₂ (hleft₂.closed hc)) ?_
  intro b c₃ hb
  have hleft₃ := hleft₂.trans hb
  refine yields_bind (left_elseArm hblock (hleft₃.closed hc)) ?_
  intro last c₄ hlast
  have hleft₄ := hleft₃.trans hlast
  refine yields_bind (left_keyword (by decide) (hleft₄.closed hc)) ?_
  intro _ c₅ hend
  refine (left_node .unlessStmt t _ c₅ (by decide)).mono ?_
  rintro n c₆ ⟨hn, hnode⟩
  rw [hn]
  simpa using hleft₄.trans (hend.trans hnode)

/-- A loop with a condition keeps what its condition and its body keep. -/
theorem left_whileLoop (hexpr : Leaves expr) (hblock : ∀ stops, Leaves (block stops)) :
    Leaves (whileLoop expr block) := by
  intro c hc
  refine yields_bind (left_keyword (by decide) hc) ?_
  intro t c₁ hwhile
  refine yields_bind (left_condition hexpr (by decide) c₁ (hwhile.closed hc)) ?_
  intro cond c₂ hcond
  have hleft₂ := hwhile.trans hcond
  refine yields_bind (hblock _ c₂ (hleft₂.closed hc)) ?_
  intro b c₃ hb
  have hleft₃ := hleft₂.trans hb
  refine yields_bind (left_keyword (by decide) (hleft₃.closed hc)) ?_
  intro _ c₄ hend
  refine (left_node .whileLoop t [cond, b] c₄ (by decide)).mono ?_
  rintro n c₅ ⟨hn, hnode⟩
  rw [hn]
  simpa using hleft₃.trans (hend.trans hnode)

/-- A semicolon is taken, and no leaf is made of it. -/
theorem left_semi {c : Cursor} (hc : c.Closed) :
    (expect .semi ";").Yields c fun _ c' => Left c [] c' := by
  refine (took_expect .semi ";" hc (by decide)).mono ?_
  rintro t c' ⟨hkind, -, htook⟩
  exact .of_mute htook (by simp [Token.isMute, hkind])

/-- The brackets of the header stand right behind the keyword and right before the body. -/
theorem left_forLoop (hexpr : Leaves expr) (hblock : ∀ stops, Leaves (block stops)) (fuel : Nat) :
    Leaves (forLoop expr block fuel) := by
  intro c hc
  refine yields_bind (took_expectKeyword "for" hc) ?_
  rintro t c₁ ⟨hword, hfor⟩
  refine yields_bind (took_opening "(" (hfor.closed hc)) ?_
  rintro o c₂ ⟨ho, hopening⟩
  have hc₂ := hopening.closed (hfor.closed hc)
  refine yields_bind (left_forClause hexpr fuel .forInit ";" (by decide) c₂ hc₂) ?_
  intro init c₃ hinit
  refine yields_bind (left_semi (hinit.closed hc₂)) ?_
  intro _ c₄ hsemi
  have hleft₄ := hinit.trans hsemi
  refine yields_bind (yields_peek 0 c₄) ?_
  rintro u _ ⟨rfl, -⟩
  refine yields_bind (hexpr c₄ (hleft₄.closed hc₂)) ?_
  intro e c₅ he
  refine yields_bind (left_node .cond u [e] c₅ (by decide)) ?_
  rintro cond c₆ ⟨hcond, hnode⟩
  have hleft₆ := (hleft₄.trans he).trans hnode
  refine yields_bind (left_semi (hleft₆.closed hc₂)) ?_
  intro _ c₇ hsemi'
  have hleft₇ := hleft₆.trans hsemi'
  refine yields_bind (left_forClause hexpr fuel .forStep ")" (by decide) c₇ (hleft₇.closed hc₂)) ?_
  intro step c₈ hstep
  have hleft₈ := hleft₇.trans hstep
  refine yields_bind (took_closing ")" (hleft₈.closed hc₂)) ?_
  rintro d c₉ ⟨hd, hclosing⟩
  obtain ⟨ts, hts, hretains⟩ := hleft₈
  -- the header with its brackets is one rule, so it is put together before the body is followed
  have hheader : Left c _ c₉ :=
    ⟨t :: o :: (ts ++ [d]), hfor.trans (hopening.trans (hts.trans hclosing)), hretains.header hword ho hd⟩
  refine yields_bind (hblock _ c₉ (hheader.closed hc)) ?_
  intro b c₁₀ hb
  have hleft₁₀ := hheader.trans hb
  refine yields_bind (left_keyword (by decide) (hleft₁₀.closed hc)) ?_
  intro _ c₁₁ hend
  refine (left_node .forLoop t [init, cond, step, b] c₁₁ (by decide)).mono ?_
  rintro n c₁₂ ⟨hn, hwhole⟩
  rw [hn]
  simpa [hcond] using hleft₁₀.trans (hend.trans hwhole)

/-! ## Functions

A function keeps its name and its parameters. The leaf of the name is made last, behind the body, but
it stands first in the tree. -/

/-- The names of parameters are kept, the commas between them are not. -/
theorem left_paramNames (fuel : Nat) {c : Cursor} (hc : c.Closed) :
    (paramNames fuel).Yields c fun ns c' => Left c (Node.leavesAll ns) c' := by
  induction fuel generalizing c with
  | zero => exact yields_bind (yields_peek 0 c) fun _ _ _ => yields_fail
  | succ fuel ih =>
    refine yields_bind (took_expectName _ hc) ?_
    rintro t c₁ ⟨hname, htook⟩
    refine yields_bind (left_term t c₁) ?_
    rintro p c₂ ⟨hp, hterm⟩
    have hleft : Left c p.leaves c₂ := by
      rw [hp]
      exact (Left.of_kept htook (Token.isKept_of_isName hname)).trans hterm
    refine yields_bind (yields_peek 0 c₂) ?_
    rintro after _ ⟨rfl, hafter⟩
    refine yields_ite (fun _ => yields_pure (by simpa using hleft)) fun hcomma => ?_
    -- a comma has no leaf
    have hmute : after.isMute = true := by simp at hcomma; simp [Token.isMute, hcomma]
    refine yields_bind (took_skip (hleft.closed hc) hafter (Token.ne_eof_of_mute hmute)) ?_
    intro _ c₃ hskip
    refine yields_bind (left_skipNewlines c₃) ?_
    intro _ c₄ hlines
    have hleft₄ := (hleft.trans (Left.of_mute hskip hmute)).trans hlines
    refine yields_bind (ih (hleft₄.closed hc)) ?_
    intro ps c₅ hps
    exact yields_pure (by simpa using hleft₄.trans hps)

/-- The parameters of a function, whose name stands before them. -/
theorem left_params (fuel : Nat) {name : Token} (hname : name.isName = true) {c : Cursor}
    (hc : c.Closed) :
    (params fuel).Yields c fun n c' => LeftBehind name c (name :: n.leaves) c' := by
  -- without brackets the name is just a token in front
  have hplain : ∀ {ls : List Token} {c' : Cursor}, Left c ls c' → LeftBehind name c (name :: ls) c' := by
    rintro ls c' ⟨ts, hts, hretains⟩
    exact ⟨ts, hts, (Retains.kept (Token.isKept_of_isName hname)).append hretains⟩
  refine yields_bind (yields_peek 0 c) ?_
  rintro t _ ⟨rfl, ht⟩
  refine yields_bind ((took_fresh c).and (ahead_of_fresh c)) ?_
  rintro id c₁ ⟨hid, hahead⟩
  have hc₁ := hid.closed hc
  refine yields_ite (fun ho => ?_) fun _ => yields_ite (fun _ => ?_) fun _ => yields_pure ?_
  · refine yields_bind (took_skip hc₁ (hahead.trans ht)
      (Token.ne_eof_of_isBracket (Token.isBracket_of_isOpening ho))) ?_
    intro _ c₂ hopening
    have hopening : Took c [t] c₂ := hid.trans hopening
    refine yields_bind (left_skipNewlines c₂) ?_
    intro _ c₃ hlines
    have hc₃ := hlines.closed (hopening.closed hc)
    refine yields_bind (yields_peek 0 c₃) ?_
    rintro u _ ⟨rfl, -⟩
    have hnames : (if u.kind ≠ .closing then paramNames fuel else pure []).Yields c₃ fun ns c' =>
        Left c₃ (Node.leavesAll ns) c' :=
      yields_ite (fun _ => left_paramNames fuel hc₃) fun _ => yields_pure (.refl c₃)
    refine yields_ite_bind hnames ?_
    intro names c₄ hnames
    refine yields_bind (left_skipNewlines c₄) ?_
    intro _ c₅ hlines'
    -- between the brackets: the names, with line feeds before and behind
    have hinner := (hlines.trans hnames).trans hlines'
    refine yields_bind (took_closing ")" (hinner.closed (hopening.closed hc))) ?_
    rintro d c₆ ⟨hd, hclosing⟩
    obtain ⟨ts, hts, hretains⟩ := hinner
    exact yields_pure ⟨t :: (ts ++ [d]), hopening.trans (hts.trans hclosing),
      by simpa [Node.leaves] using hretains.listed hname ho hd⟩
  · refine yields_bind (left_paramNames fuel hc₁) ?_
    intro names c₂ hnames
    exact yields_pure (hplain ((Left.of_none hid).trans hnames))
  · exact hplain (.of_none hid)

/-- A function keeps its name, its parameters and what its body keeps. -/
theorem left_funcDef (hblock : ∀ stops, Leaves (block stops)) (fuel : Nat) (inBlock : Bool) :
    Leaves (funcDef block fuel inBlock) := by
  intro c hc
  refine yields_bind (left_keyword (by decide) hc) ?_
  intro t c₁ hdef
  refine yields_ite (fun _ => yields_fail_bind) fun _ => ?_
  have hc₁ := hdef.closed hc
  refine yields_bind (took_expectName _ hc₁) ?_
  rintro name c₂ ⟨hname, htook⟩
  refine yields_bind (left_params fuel hname (htook.closed hc₁)) ?_
  intro params c₃ hparams
  -- the name stands in front of the parameters, with which its brackets go together
  have hleft₃ := hdef.trans (.of_behind htook hparams)
  refine yields_bind (hblock _ c₃ (hleft₃.closed hc)) ?_
  intro b c₄ hb
  have hleft₄ := hleft₃.trans hb
  refine yields_bind (left_keyword (by decide) (hleft₄.closed hc)) ?_
  intro _ c₅ hend
  refine yields_bind (left_term name c₅) ?_
  rintro nameTerm c₆ ⟨hnameTerm, hterm⟩
  refine (left_node .funcDef t [nameTerm, params, b] c₆ (by decide)).mono ?_
  rintro n c₇ ⟨hn, hnode⟩
  rw [hn]
  simpa [hnameTerm] using hleft₄.trans ((hend.trans hterm).trans hnode)

/-! ## Statements

The last step puts the productions together, in the order in which the parser tells them apart: by a
keyword, by the kind of the first token, or by the token behind a name. -/

/-- A call with arguments without brackets. -/
theorem left_command (hexpr : Leaves expr) (fuel : Nat) {name : Token} (hname : name.isName = true)
    {c₀ c : Cursor} (hc : c.Closed) (htook : Took c₀ [name] c) :
    (do
      let args ← args expr fuel name false
      let callee ← term name
      let call ← node .call name [callee, args]
      node .callStmt name [call] : Parser Node).Yields c fun n c' => Left c₀ n.leaves c' := by
  refine yields_bind (left_args hexpr fuel name false hc) ?_
  intro args c₁ hargs
  refine yields_bind (left_term name c₁) ?_
  rintro callee c₂ ⟨hcallee, hterm⟩
  refine yields_bind (left_node .call name [callee, args] c₂ (by decide)) ?_
  rintro call c₃ ⟨hcall, hnode⟩
  refine (left_node .callStmt name [call] c₃ (by decide)).mono ?_
  rintro n c₄ ⟨hn, hnode'⟩
  have hleft := (Left.of_kept htook (Token.isKept_of_isName hname)).trans hargs
  rw [hn]
  simpa [hcall, hcallee] using hleft.trans ((hterm.trans hnode).trans hnode')

/-- A statement that starts with a name keeps what was taken. -/
theorem left_nameStmt (hexpr : Leaves expr) (fuel : Nat) {c : Cursor} (hc : c.Closed) {name : Token}
    (ht : c.ahead = .ok name) (hname : name.isName = true) :
    (nameStmt expr fuel name).Yields c fun n c' => Left c n.leaves c' := by
  have hskip := took_skip hc ht (Token.ne_eof_of_kept (Token.isKept_of_isName hname))
  refine yields_bind (yields_peek 1 c) ?_
  rintro ahead _ ⟨rfl, -⟩
  refine yields_ite (fun _ => left_assignment hexpr hc ht hname) fun _ => yields_ite (fun _ => ?_) fun _ => ?_
  · refine yields_bind hskip ?_
    intro _ c₁ htook
    refine yields_bind (left_call hexpr fuel hname (htook.closed hc)) ?_
    intro call c₂ hcall
    refine (left_node .callStmt name [call] c₂ (by decide)).mono ?_
    rintro n c₃ ⟨hn, hnode⟩
    rw [hn]
    simpa using (Left.of_behind htook hcall).trans hnode
  -- whether an argument follows is seen from the tokens ahead, which stay
  · refine yields_bind (yields_startsArgument name ahead c) ?_
    rintro starts _ rfl
    refine yields_ite (fun _ => ?_) fun _ => ?_
    · refine yields_bind hskip ?_
      intro _ c₁ htook
      exact left_command hexpr fuel hname (htook.closed hc) htook
    · refine yields_bind hskip ?_
      intro _ c₁ htook
      refine yields_bind (left_term name c₁) ?_
      rintro callee c₂ ⟨hcallee, hterm⟩
      refine yields_bind (left_node .args name [] c₂ (by decide)) ?_
      rintro args c₃ ⟨hargs, hnode⟩
      refine yields_bind (left_node .call name [callee, args] c₃ (by decide)) ?_
      rintro call c₄ ⟨hcall, hnode'⟩
      refine (left_node .callStmt name [call] c₄ (by decide)).mono ?_
      rintro n c₅ ⟨hn, hnode''⟩
      have hleft := (Left.of_kept htook (Token.isKept_of_isName hname)).trans hterm
      rw [hn]
      simpa [hcall, hcallee, hargs] using hleft.trans ((hnode.trans hnode').trans hnode'')

/-- An assignment to a global keeps the global, the equals sign and what the expression keeps. -/
theorem left_globalSet (hexpr : Leaves expr) {t : Token} (hkind : t.kind = .global) {c : Cursor}
    (hc : c.Closed) (ht : c.ahead = .ok t) :
    (do
      skip
      let op ← next
      if !op.isOp "=" then fail op (.globalAssign t.text)
      let global ← term t
      let opTerm ← term op
      let e ← expr
      node .globalSet t [global, opTerm, e] : Parser Node).Yields c fun n c' => Left c n.leaves c' := by
  have hkept : t.isKept = true := by simp [Token.isKept, hkind]
  refine yields_bind (took_skip hc ht (Token.ne_eof_of_kept hkept)) ?_
  intro _ c₁ hskip
  refine yields_bind (took_next (hskip.closed hc)) ?_
  rintro op c₂ ⟨-, htook⟩
  refine yields_ite (fun _ => yields_fail_bind) fun hequals => ?_
  have hkeptOp := @Token.isKept_of_isOp op "=" (by simpa using hequals) (by decide)
  have hop := Left.of_kept (htook (Token.ne_eof_of_kept hkeptOp)) hkeptOp
  refine yields_bind (left_term t c₂) ?_
  rintro global c₃ ⟨hglobal, hterm⟩
  refine yields_bind (left_term op c₃) ?_
  rintro opTerm c₄ ⟨hopTerm, hterm'⟩
  -- the two leaves are made behind both tokens, and no token is taken for them
  have hleft := (((Left.of_kept hskip hkept).trans hop).trans hterm).trans hterm'
  refine yields_bind (hexpr c₄ (hleft.closed hc)) ?_
  intro e c₅ he
  refine (left_node .globalSet t [global, opTerm, e] c₅ (by decide)).mono ?_
  rintro n c₆ ⟨hn, hnode⟩
  rw [hn]
  simpa [hglobal, hopTerm] using (hleft.trans he).trans hnode

/-- A return keeps what its expression keeps, if it has one. -/
theorem left_return (hexpr : Leaves expr) {t : Token} (hkeyword : t.isKeyword "return" = true) {c : Cursor}
    (hc : c.Closed) (ht : c.ahead = .ok t) :
    (do
      skip
      if (← peek).endsStmt then node .returnStmt t []
      else
        let e ← expr
        node .returnStmt t [e] : Parser Node).Yields c fun n c' => Left c n.leaves c' := by
  refine yields_bind (left_skipKeyword (by decide) hc ht hkeyword) ?_
  intro _ c₁ hskip
  refine yields_bind (yields_peek 0 c₁) ?_
  rintro _ _ ⟨rfl, -⟩
  -- without a value there is nothing behind the keyword
  refine yields_ite (fun _ => ?_) fun _ => ?_
  · refine (left_node .returnStmt t [] c₁ (by decide)).mono ?_
    rintro n c₂ ⟨hn, hnode⟩
    rw [hn]
    exact hskip.trans hnode
  · refine yields_bind (hexpr c₁ (hskip.closed hc)) ?_
    intro e c₂ he
    refine (left_node .returnStmt t [e] c₂ (by decide)).mono ?_
    rintro n c₃ ⟨hn, hnode⟩
    rw [hn]
    simpa using (hskip.trans he).trans hnode

/-- A require keeps the string with the name of the library. -/
theorem left_require {t : Token} (hkeyword : t.isKeyword "require" = true) {c : Cursor} (hc : c.Closed)
    (ht : c.ahead = .ok t) :
    (do
      skip
      let name ← next
      if name.kind ≠ .string then fail name .requireName
      node .require t [← term name] : Parser Node).Yields c fun n c' => Left c n.leaves c' := by
  refine yields_bind (left_skipKeyword (by decide) hc ht hkeyword) ?_
  intro _ c₁ hskip
  refine yields_bind (took_next (hskip.closed hc)) ?_
  rintro name c₂ ⟨-, htook⟩
  refine yields_ite (fun _ => yields_fail_bind) fun hkind => ?_
  have hkept : name.isKept = true := by simp at hkind; simp [Token.isKept, hkind]
  refine yields_bind (left_term name c₂) ?_
  rintro nameTerm c₃ ⟨hnameTerm, hterm⟩
  refine (left_node .require t [nameTerm] c₃ (by decide)).mono ?_
  rintro n c₄ ⟨hn, hnode⟩
  rw [hn]
  simpa [hnameTerm] using
    (hskip.trans (Left.of_kept (htook (Token.ne_eof_of_kept hkept)) hkept)).trans (hterm.trans hnode)

/-- Target code is kept as one token. -/
theorem left_inlinePir {t : Token} (hkind : t.kind = .pir) {c : Cursor} (hc : c.Closed)
    (ht : c.ahead = .ok t) :
    (do
      skip
      node .inlinePir t [← term t] : Parser Node).Yields c fun n c' => Left c n.leaves c' := by
  have hkept : t.isKept = true := by simp [Token.isKept, hkind]
  refine yields_bind (took_skip hc ht (Token.ne_eof_of_kept hkept)) ?_
  intro _ c₁ hskip
  refine (left_single .inlinePir (by decide) t c₁).mono ?_
  rintro n c₂ ⟨hn, hleft⟩
  rw [hn]
  exact (Left.of_kept hskip hkept).trans hleft

/-- Statements of all sorts keep what was taken. -/
theorem left_stmt (fuel : Nat) (ctx : Context) : Leaves (stmt fuel ctx) := by
  -- blocks are parsed with less fuel; the first token tells the statement
  induction fuel generalizing ctx with
  | zero => exact fun c _ => yields_bind (yields_peek 0 c) fun _ _ _ => yields_fail
  | succ fuel ih =>
    intro c hc
    have hexpr := left_expr (fuel + 1)
    have hblock : ∀ ctx stops, Leaves (body (stmt fuel ctx) (fuel + 1) stops) :=
      fun ctx => left_body (ih ctx) (fuel + 1)
    refine yields_bind (yields_peek 0 c) ?_
    rintro t _ ⟨rfl, ht⟩
    split
    · exact left_inlinePir ‹_› hc ht
    · exact left_globalSet hexpr ‹_› hc ht
    · rename_i hkind
      have hkeyword : ∀ {word : String}, t.text = word → t.isKeyword word = true :=
        fun htext => by simp [Token.isKeyword, hkind, htext]
      split
      · exact left_funcDef (hblock _) (fuel + 1) ctx.inBlock c hc
      · exact left_ifStmt hexpr (hblock _) (fuel + 1) c hc
      · exact left_unlessStmt hexpr (hblock _) c hc
      · exact left_whileLoop hexpr (hblock _) c hc
      · exact left_forLoop hexpr (hblock _) (fuel + 1) c hc
      · refine yields_bind (@left_skipKeyword "break" (by decide) c hc t ht (hkeyword ‹_›)) ?_
        intro _ c₁ hskip
        refine yields_ite (fun _ => ?_) fun _ => yields_fail
        refine (left_node .breakStmt t [] c₁ (by decide)).mono ?_
        rintro n c₂ ⟨hn, hnode⟩
        rw [hn]
        exact hskip.trans hnode
      · exact left_return hexpr (hkeyword ‹_›) hc ht
      · exact left_require (hkeyword ‹_›) hc ht
      · exact yields_ite (fun hname => left_nameStmt hexpr (fuel + 1) hc ht hname) fun _ => yields_fail
    · exact yields_fail

/-- A program is read up to the end of input. -/
theorem left_program (fuel : Nat) {c : Cursor} (hc : c.Closed) :
    (program fuel).Yields c fun n c' =>
      Left c n.leaves c' ∧ ∃ t, c'.ahead = .ok t ∧ t.kind = .eof := by
  refine yields_bind (yields_peek 0 c) ?_
  rintro t _ ⟨rfl, -⟩
  -- nothing but the end of input stops the list of a program
  refine yields_bind (left_stmtList (left_stmt fuel {}) fuel [] hc) ?_
  rintro list c₁ ⟨hlist, u, hu, hend⟩
  refine ((left_node .program t [list] c₁ (by decide)).and (ahead_of_node .program t [list] c₁)).mono ?_
  rintro n c₂ ⟨⟨hn, hnode⟩, hahead⟩
  rw [hn, hahead]
  exact ⟨by simpa using hlist.trans hnode, u, hu, by simpa [endsBlock] using hend⟩

end Parser

/-- The tokens in front of the end of input. -/
def Lexed.program (l : Lexed) : List Token := l.tokens.takeWhile (·.kind ≠ .eof)

/-- The terminals of the tree of a program, from left to right and without brackets, are the operands, the
operators and the names among the tokens, in order. Every other token separates tokens, is a word that
statements are made of, is the colon behind the name of an argument, or is a bracket; and a bracket without a
terminal belongs to the arguments of a call, to parameters, to the header of a loop or to an empty array. -/
theorem leaves_of_parse {l : Lexed} {root : Node} (h : parseFrom (.start l) = .ok root) :
    root.leaves.filter (!·.isBracket) = l.program.filter Token.isKept ∧
      root.leaves.Sublist l.program ∧ Retains l.program root.leaves := by
  unfold parseFrom at h
  cases hrun : (Parser.program ((Cursor.start l).rest.length + 1)).run (.start l) with
  | error e => rw [hrun] at h; cases h
  | ok r =>
    rw [hrun] at h
    cases h
    have hclosed : (Cursor.start l).Closed := fun t ht => kind_of_ending l ht
    obtain ⟨⟨ts, htook, hretains⟩, t, ht, heof⟩ := Parser.left_program _ hclosed _ _ hrun
    -- the parser stopped before the first end of input, and took none
    have hprogram : l.program = ts := by
      have hrest : l.tokens = ts ++ r.2.rest := htook.rest_eq
      have hnone : r.2.rest.takeWhile (·.kind ≠ .eof) = [] := by
        unfold Cursor.ahead at ht
        cases hrest : r.2.rest with
        | nil => rfl
        | cons u rest =>
          rw [hrest] at ht
          cases ht
          simp [heof]
      rw [Lexed.program, hrest, List.takeWhile_append_of_pos (by simpa using hretains.ne_eof), hnone,
        List.append_nil]
    rw [hprogram]
    exact ⟨hretains.filter_eq, hretains.sublist, hretains⟩

/-- A program with brackets of all sorts, and an argument with a name. -/
def bracketed : Lexed := lex (.ofString "def f(a)\n  b = []\n  b[(a)] = not f(x: 1)\nend\nf 2, $g")

theorem leaves_of_parse_bracketed :
    ∃ root, parseFrom (.start bracketed) = .ok root ∧
      root.leaves.filter (!·.isBracket) = bracketed.program.filter Token.isKept ∧
        root.leaves.Sublist bracketed.program ∧ Retains bracketed.program root.leaves := by
  have hok : (parseFrom (.start bracketed)).toOption.isSome = true := by decide +kernel
  cases h : parseFrom (.start bracketed) with
  | error e => rw [h] at hok; cases hok
  | ok root => exact ⟨root, rfl, leaves_of_parse h⟩

end ScriptPir

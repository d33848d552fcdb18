import ScriptPir.Proofs.ExpressionParsing
import ScriptPir.Proofs.Lexing
import ScriptPir.Tree.Statement

/-!
# What the statement parser makes

Main statement: `exists_script_of_parse`. The tree of a source that parses is that of a `Shape.Script`:
breaks stand inside loops, functions stand at the top, indices hold no constant but integers, and all
ids are different numbers.

As in the module on expressions, every production is followed in the order in which it calls others.
Which tokens were taken no longer matters here, only which ids were given out (`Made`).

* `Makes` — what is proved of a parser for statements: its trees have a property, and the ids are those
  given out;
* `IsStmt` and `IsBlock` — the trees of statements and blocks, inside a loop or not;
* `IsItem` — what may stand at the top or inside a block, by the context that the parser is called with;
* `made_stmt` — all statements, by induction on the fuel.
-/

namespace ScriptPir

open Shape

/-! ## Cursors of a source

`Cursor.Sound` is what a parser may rely on: every cursor it reaches from the start of a source has
these properties. `Made` counts the ids that were given out on the way, in any order. -/

/-- What every cursor of a source keeps: only the end of input stands behind the last token, and every
string among the tokens has a value. -/
structure Cursor.Sound (c : Cursor) : Prop where
  closed : c.Closed
  strings : ∀ t ∈ c.rest, t.kind = .string → ∃ v, literal t = .ok v

theorem Cursor.sound_start (src : Source) : (Cursor.start (lex src)).Sound :=
  ⟨fun _ ht => kind_of_ending _ ht, fun _ ht => exists_literal_of_mem_tokens src ht⟩

/-- The next token, if it is a string, has a value. -/
theorem Cursor.Sound.exists_literal {c : Cursor} (hc : c.Sound) {t : Token} (ht : c.ahead = .ok t)
    (hkind : t.kind = .string) : ∃ v, literal t = .ok v := by
  unfold Cursor.ahead at ht
  cases hrest : c.rest with
  | nil =>
    rw [hrest] at ht
    have heof := hc.closed t ht
    rw [hkind] at heof
    cases heof
  | cons u rest =>
    rw [hrest] at ht
    cases ht
    exact hc.strings t (by rw [hrest]; exact List.mem_cons_self) hkind

/-- Between two cursors nodes with some ids were made. -/
def Made (c : Cursor) (ids : List Int) (c' : Cursor) : Prop := ∃ sig, Read c sig ids c'

namespace Made

variable {c c₁ c₂ : Cursor} {ids ids₁ ids₂ : List Int}

theorem refl (c : Cursor) : Made c [] c := ⟨[], Read.refl c⟩

/-- What was made in two stretches was made in one. -/
theorem trans (h₁ : Made c ids₁ c₁) (h₂ : Made c₁ ids₂ c₂) : Made c (ids₁ ++ ids₂) c₂ := by
  obtain ⟨_, h₁⟩ := h₁
  obtain ⟨_, h₂⟩ := h₂
  exact ⟨_, h₁.trans h₂⟩

theorem reorder (h : Made c ids₁ c₁) (hcount : ∀ i, ids₂.count i = ids₁.count i) :
    Made c ids₂ c₁ := by
  obtain ⟨sig, h⟩ := h
  exact ⟨sig, h.reorder rfl hcount⟩

theorem sound (h : Made c ids c₁) (hc : c.Sound) : c₁.Sound := by
  obtain ⟨sig, h⟩ := h
  exact ⟨h.closed hc.closed, fun t ht => hc.strings t (h.mem_rest ht)⟩

end Made

namespace Parser

/-- Skipping a token makes no node. -/
theorem made_skip (c : Cursor) : skip.Yields c fun _ c' => Made c [] c' := by
  refine (yields_skip c).mono ?_
  rintro _ _ rfl
  exact exists_read_advanced c

/-- Taking a token makes no node. -/
theorem made_next (c : Cursor) : next.Yields c fun t c' => c.ahead = .ok t ∧ Made c [] c' := by
  refine (yields_next c).mono ?_
  rintro t _ ⟨rfl, ht⟩
  exact ⟨ht, exists_read_advanced c⟩

theorem made_skipNewlines (c : Cursor) : skipNewlines.Yields c fun _ c' => Made c [] c' :=
  (yields_skipNewlines c).mono fun _ _ h => ⟨_, h⟩

theorem made_fresh (c : Cursor) : fresh.Yields c fun id c' => Made c [id] c' :=
  (yields_fresh c).mono fun _ _ h => ⟨_, h⟩

/-- A node is made with one id. -/
theorem made_node (kind : Kind) (t : Token) (children : List Node) (c : Cursor) :
    (node kind t children).Yields c fun n c' =>
      ∃ id, n = .mk id kind t children ∧ Made c [id] c' := by
  refine (yields_node kind t children c).mono ?_
  rintro n c' ⟨id, rfl, hid⟩
  exact ⟨id, rfl, _, hid⟩

/-- A leaf is made of a token, with one id. -/
theorem made_term (t : Token) (c : Cursor) :
    (term t).Yields c fun n c' => ∃ l : Leaf, n = l.node ∧ l.token = t ∧ Made c [l.id] c' := by
  refine (yields_term t c).mono ?_
  rintro n c' ⟨l, rfl, hl, hid⟩
  exact ⟨l, rfl, hl, _, hid⟩

/-- An expected token makes no node. -/
theorem made_expect (kind : TokenKind) (text : String) (c : Cursor) :
    (expect kind text).Yields c fun _ c' => Made c [] c' := by
  refine (yields_expect kind text c).mono ?_
  rintro t _ ⟨rfl, -⟩
  exact exists_read_advanced c

/-- An expected keyword makes no node. -/
theorem made_expectKeyword (word : String) (c : Cursor) :
    (expectKeyword word).Yields c fun _ c' => Made c [] c' := by
  refine (yields_expectKeyword word c).mono ?_
  rintro t _ ⟨rfl, -⟩
  exact exists_read_advanced c

/-- An expected name is a name, and makes no node. -/
theorem made_expectName (what : String) (c : Cursor) :
    (expectName what).Yields c fun t c' => t.isName = true ∧ Made c [] c' := by
  refine (yields_expectName what c).mono ?_
  rintro t _ ⟨rfl, -, ht⟩
  exact ⟨ht, exists_read_advanced c⟩

/-- An expression, with its first token as it was seen ahead. -/
theorem made_expr {expr : Parser Node} (hexpr : ReadsExprs expr) {c : Cursor} (hc : c.Sound) :
    expr.Yields c fun n c' => ∃ e : Expr, n = e.node ∧ e.Indexed ∧ c.ahead = .ok e.token ∧
      Made c n.ids c' := by
  refine (hexpr c hc.closed).mono ?_
  rintro n c' ⟨e, rfl, he⟩
  obtain ⟨sig, hread, -⟩ := he.read
  exact ⟨e, rfl, he.indexed, he.ahead, sig, hread⟩

/-- A parser whose trees have a property. -/
def Makes (p : Parser Node) (P : Node → Prop) : Prop :=
  ∀ c, c.Sound → p.Yields c fun n c' => P n ∧ Made c n.ids c'

/-! ## Assignments

Each sort of assignment has a production of its own, that is followed to the constructor of
`Shape.Assignment` it makes. An index with a constant that is no integer fails in `index`, so the
value of the index is one. -/

/-- An assignment to an element is one of the shape. -/
theorem made_elementAssign {expr : Parser Node} (hexpr : ReadsExprs expr) {name : Token}
    (hname : name.isName = true) {c : Cursor} (hc : c.Sound) :
    (do
      let target ← index expr name
      let op ← next
      if !op.isOp "=" then fail op (.elementAssign target.text)
      let opTerm ← term op
      let e ← expr
      node .indexAssign name [target, opTerm, e] : Parser Node).Yields c fun n c' =>
      ∃ a : Assignment, n = a.node ∧ a.Indexed ∧ Made c n.ids c' := by
  refine yields_bind (yields_index hexpr hname hc.closed) ?_
  rintro _ c₁ ⟨parts, e, rfl, he⟩
  obtain ⟨sig, hread, -⟩ := he.read
  have hmade₁ : Made c _ c₁ := ⟨sig, hread⟩
  refine yields_bind (made_next c₁) ?_
  rintro op c₂ ⟨-, hop⟩
  refine yields_ite (fun _ => yields_fail_bind) fun hequals => ?_
  refine yields_bind (made_term op c₂) ?_
  rintro _ c₃ ⟨l, rfl, rfl, hl⟩
  have hmade₃ := (hmade₁.trans hop).trans hl
  refine yields_bind (made_expr hexpr (hmade₃.sound hc)) ?_
  rintro _ c₄ ⟨v, rfl, hv, -, hmade⟩
  refine (made_node .indexAssign name _ c₄).mono ?_
  rintro _ c₅ ⟨id, rfl, hid⟩
  obtain rfl : parts.array.token = name := he.token_eq
  -- the ids are those of the parts, in another order
  refine ⟨.store id parts e ⟨l, by simpa using hequals⟩ v, rfl, ⟨he.indexed, hv⟩, ?_⟩
  refine ((hmade₃.trans hmade).trans hid).reorder fun i => ?_
  simp [Node.ids, Node.idsAll, Leaf.node, List.count_cons]
  omega

/-- An assignment sign with this text is the equals sign. -/
theorem isOp_equals {op : Token} (hop : op.isAssign = true) (htext : op.text = "=") :
    op.isOp "=" = true := by
  simp only [Token.isAssign, Bool.and_eq_true, decide_eq_true_eq] at hop
  simp [Token.isOp, hop.1, htext]

/-- An assignment of a new array is one of the shape. -/
theorem made_arrayInit {name op : Token} (hname : name.isName = true) (hop : op.isAssign = true)
    (htext : op.text = "=") (c : Cursor) :
    (do
      skip
      let closing ← next
      if ¬(closing.kind = .closing ∧ closing.text = "]") then fail closing .arrayNotEmpty
      let nameTerm ← term name
      let opTerm ← term op
      node .arrayInit name [nameTerm, opTerm] : Parser Node).Yields c fun n c' =>
      ∃ a : Assignment, n = a.node ∧ a.Indexed ∧ Made c n.ids c' := by
  refine yields_bind (made_skip c) ?_
  intro _ c₁ hskip
  refine yields_bind (made_next c₁) ?_
  rintro closing c₂ ⟨-, hclosing⟩
  refine yields_ite (fun _ => yields_fail_bind) fun _ => ?_
  refine yields_bind (made_term name c₂) ?_
  rintro _ c₃ ⟨l, rfl, rfl, hl⟩
  refine yields_bind (made_term op c₃) ?_
  rintro _ c₄ ⟨o, rfl, rfl, ho⟩
  refine (made_node .arrayInit l.token _ c₄).mono ?_
  rintro _ c₅ ⟨id, rfl, hid⟩
  refine ⟨.arrayInit id ⟨l, hname⟩ ⟨o, isOp_equals hop htext⟩, rfl, trivial, ?_⟩
  refine ((((hskip.trans hclosing).trans hl).trans ho).trans hid).reorder fun i => ?_
  simp [Node.ids, Node.idsAll, Leaf.node, List.count_cons]
  omega

/-- An assignment from a global is one of the shape. -/
theorem made_globalGet {name op t : Token} (hname : name.isName = true) (hop : op.isAssign = true)
    (htext : op.text = "=") (ht : t.kind = .global) (c : Cursor) :
    (do
      skip
      let nameTerm ← term name
      let opTerm ← term op
      let global ← term t
      node .globalGet name [nameTerm, opTerm, global] : Parser Node).Yields c fun n c' =>
      ∃ a : Assignment, n = a.node ∧ a.Indexed ∧ Made c n.ids c' := by
  refine yields_bind (made_skip c) ?_
  intro _ c₁ hskip
  refine yields_bind (made_term name c₁) ?_
  rintro _ c₂ ⟨l, rfl, rfl, hl⟩
  refine yields_bind (made_term op c₂) ?_
  rintro _ c₃ ⟨o, rfl, rfl, ho⟩
  refine yields_bind (made_term t c₃) ?_
  rintro _ c₄ ⟨g, rfl, rfl, hg⟩
  refine (made_node .globalGet l.token _ c₄).mono ?_
  rintro _ c₅ ⟨id, rfl, hid⟩
  refine ⟨.globalGet id ⟨l, hname⟩ ⟨o, isOp_equals hop htext⟩ ⟨g, ht⟩, rfl, trivial, ?_⟩
  refine ((((hskip.trans hl).trans ho).trans hg).trans hid).reorder fun i => ?_
  simp [Node.ids, Node.idsAll, Leaf.node, List.count_cons]
  omega

/-- An assignment of a value is one of the shape. -/
theorem made_valueAssign {expr : Parser Node} (hexpr : ReadsExprs expr) {name op : Token}
    (hname : name.isName = true) (hop : op.isAssign = true) {c : Cursor} (hc : c.Sound) :
    (do
      skipNewlines
      let nameTerm ← term name
      let opTerm ← term op
      let e ← expr
      node .assign name [nameTerm, opTerm, e] : Parser Node).Yields c fun n c' =>
      ∃ a : Assignment, n = a.node ∧ a.Indexed ∧ Made c n.ids c' := by
  refine yields_bind (made_skipNewlines c) ?_
  intro _ c₁ hskip
  refine yields_bind (made_term name c₁) ?_
  rintro _ c₂ ⟨l, rfl, rfl, hl⟩
  refine yields_bind (made_term op c₂) ?_
  rintro _ c₃ ⟨o, rfl, rfl, ho⟩
  have hmade₃ := (hskip.trans hl).trans ho
  refine yields_bind (made_expr hexpr (hmade₃.sound hc)) ?_
  rintro _ c₄ ⟨v, rfl, hv, -, hmade⟩
  refine (made_node .assign l.token _ c₄).mono ?_
  rintro _ c₅ ⟨id, rfl, hid⟩
  refine ⟨.assign id ⟨l, hname⟩ ⟨o, hop⟩ v, rfl, hv, ?_⟩
  refine ((hmade₃.trans hmade).trans hid).reorder fun i => ?_
  simp [Node.ids, Node.idsAll, Leaf.node, List.count_cons]
  omega

/-- Assignments of all sorts are assignments of the shape. -/
theorem made_assignment {expr : Parser Node} (hexpr : ReadsExprs expr) {c : Cursor} (hc : c.Sound)
    {t : Token} (ht : c.ahead = .ok t) (hname : t.isName = true) :
    (assignment expr).Yields c fun n c' =>
      ∃ a : Assignment, n = a.node ∧ a.Indexed ∧ Made c n.ids c' := by
  refine yields_bind (made_next c) ?_
  rintro name c₁ ⟨hname', hmade₁⟩
  obtain rfl : t = name := Except.ok.inj (ht.symm.trans hname')
  have hc₁ := hmade₁.sound hc
  -- every form starts with the name, which makes no node
  have hfinish : ∀ (c' : Cursor) (hmade : Made c [] c') (n : Node) (c'' : Cursor),
      (∃ a : Assignment, n = a.node ∧ a.Indexed ∧ Made c' n.ids c'') →
        ∃ a : Assignment, n = a.node ∧ a.Indexed ∧ Made c n.ids c'' := by
    rintro c' hmade n c'' ⟨a, hn, ha, hmade'⟩
    exact ⟨a, hn, ha, hmade.trans hmade'⟩
  refine yields_bind (yields_peek 0 c₁) ?_
  rintro _ _ ⟨rfl, -⟩
  refine yields_ite (fun _ => ?_) fun _ => ?_
  · exact (made_elementAssign hexpr hname hc₁).mono (hfinish _ hmade₁)
  refine yields_bind (made_next c₁) ?_
  rintro op c₂ ⟨-, hmade₂⟩
  have hmade₂ := hmade₁.trans hmade₂
  refine yields_ite (fun _ => yields_fail_bind) fun hassign => ?_
  have hassign : op.isAssign = true := by simpa using hassign
  -- the token looked at is the operator itself unless that is a plain equals sign
  have hlook : (if op.text = "=" then peek else pure op).Yields c₂ fun u c' =>
      c₂ = c' ∧ (u ≠ op → op.text = "=") := by
    refine yields_ite (fun htext => ?_) fun _ => yields_pure ⟨rfl, fun h => absurd rfl h⟩
    exact (yields_peek 0 c₂).mono fun u c' h => ⟨h.1, fun _ => htext⟩
  have hopKind : op.kind = .op := by
    simp only [Token.isAssign, Bool.and_eq_true, decide_eq_true_eq] at hassign
    exact hassign.1
  refine yields_ite_bind hlook ?_
  rintro u _ ⟨rfl, hu⟩
  refine yields_ite (fun hopening => ?_) fun _ => ?_
  · have hne : u ≠ op := by
      rintro rfl
      simp [Token.isOpening, hopKind] at hopening
    exact (made_arrayInit hname hassign (hu hne) c₂).mono (hfinish _ hmade₂)
  have hglobal : (if u.kind = .global then Token.endsStmt <$> peek 1 else pure false).Yields c₂
      fun b c' => c₂ = c' ∧ (b = true → u.kind = .global) := by
    refine yields_ite (fun hkind => ?_) fun _ => yields_pure ⟨rfl, nofun⟩
    exact yields_map (yields_peek 1 c₂) fun _ c' h => ⟨h.1, fun _ => hkind⟩
  refine yields_ite_bind hglobal ?_
  rintro b _ ⟨rfl, hb⟩
  refine yields_ite (fun htrue => ?_) fun _ => ?_
  · have hne : u ≠ op := by
      rintro rfl
      have := hb htrue
      rw [hopKind] at this
      cases this
    exact (made_globalGet hname hassign (hu hne) (hb htrue) c₂).mono (hfinish _ hmade₂)
  · exact (made_valueAssign hexpr hname hassign (hmade₂.sound hc)).mono (hfinish _ hmade₂)

/-! ## Loop headers and conditions

The two clauses of a loop header have trees of one shape, so their kind is a parameter. A condition
is an expression with a node around it. -/

/-- The assignments of a loop header are assignments of the shape. -/
theorem made_forAssignments {expr : Parser Node} (hexpr : ReadsExprs expr) (fuel : Nat) {c : Cursor}
    (hc : c.Sound) :
    (forAssignments expr fuel).Yields c fun ns c' => ∃ as : List Assignment,
      ns = as.map Assignment.node ∧ (∀ a ∈ as, a.Indexed) ∧ Made c (Node.idsAll ns) c' := by
  induction fuel generalizing c with
  | zero => exact yields_bind (yields_peek 0 c) fun _ _ _ => yields_fail
  | succ fuel ih =>
    refine yields_bind (yields_peek 0 c) ?_
    rintro t _ ⟨rfl, ht⟩
    -- to see whether an assignment starts nothing is taken
    have hstarts : (if t.isName then startsAssignment t <$> peek 1 else pure false).Yields c
        fun b c' => c = c' ∧ (b = true → t.isName = true) := by
      refine yields_ite (fun hname => ?_) fun _ => yields_pure ⟨rfl, nofun⟩
      exact yields_map (yields_peek 1 c) fun _ c' h => ⟨h.1, fun _ => hname⟩
    refine yields_ite_bind hstarts ?_
    rintro b _ ⟨rfl, hb⟩
    refine yields_ite (fun _ => yields_fail_bind) fun htrue => ?_
    refine yields_bind (made_assignment hexpr hc ht (hb (by simpa using htrue))) ?_
    rintro _ c₁ ⟨a, rfl, ha, hmade₁⟩
    refine yields_bind (yields_peek 0 c₁) ?_
    rintro _ _ ⟨rfl, -⟩
    refine yields_ite (fun _ => yields_pure ?_) fun _ => ?_
    · refine ⟨[a], rfl, by simpa using ha, hmade₁.reorder fun i => ?_⟩
      simp [Node.idsAll]
    · refine yields_bind (made_skip c₁) ?_
      intro _ c₂ hskip
      have hmade₂ := hmade₁.trans hskip
      refine yields_bind (ih (hmade₂.sound hc)) ?_
      rintro _ c₃ ⟨as, rfl, has, hmade₃⟩
      refine yields_pure ⟨a :: as, rfl, by simpa using ⟨ha, has⟩, ?_⟩
      exact (hmade₂.trans hmade₃).reorder fun i => by simp [Node.idsAll]

/-- A clause of a loop header is a clause of the shape. -/
theorem made_forClause {expr : Parser Node} (hexpr : ReadsExprs expr) (fuel : Nat) (kind : Kind)
    (close : String) {c : Cursor} (hc : c.Sound) :
    (forClause expr fuel kind close).Yields c fun n c' => ∃ cl : Clause,
      n = cl.node kind ∧ cl.Indexed ∧ Made c n.ids c' := by
  refine yields_bind (yields_peek 0 c) ?_
  rintro t _ ⟨rfl, -⟩
  refine yields_bind (made_fresh c) ?_
  intro id c₁ hid
  refine yields_ite (fun _ => yields_pure ?_) fun _ => ?_
  · exact ⟨⟨⟨id, t⟩, []⟩, rfl, by simp [Clause.Indexed], hid⟩
  · refine yields_bind (made_forAssignments hexpr fuel (hid.sound hc)) ?_
    rintro _ c₂ ⟨as, rfl, has, hmade⟩
    refine yields_pure ⟨⟨⟨id, t⟩, as⟩, rfl, has, ?_⟩
    exact (hid.trans hmade).reorder fun i => by simp [Node.ids]

/-- A condition is a condition of the shape. -/
theorem made_condition {expr : Parser Node} (hexpr : ReadsExprs expr) (word : String) {c : Cursor}
    (hc : c.Sound) :
    (condition expr word).Yields c fun n c' => ∃ cd : Cond,
      n = cd.node ∧ cd.expr.Indexed ∧ Made c n.ids c' := by
  refine yields_bind (yields_peek 0 c) ?_
  rintro t _ ⟨rfl, ht⟩
  refine yields_bind (made_expr hexpr hc) ?_
  rintro _ c₁ ⟨e, rfl, he, htoken, hmade₁⟩
  obtain rfl : t = e.token := Except.ok.inj (ht.symm.trans htoken)
  -- the rest is the same behind a keyword and behind a line end
  have hnode : ∀ c₂, Made c₁ [] c₂ → (node .cond e.token [e.node]).Yields c₂ fun n c' =>
      ∃ cd : Cond, n = cd.node ∧ cd.expr.Indexed ∧ Made c n.ids c' := by
    intro c₂ hmade₂
    refine (made_node .cond e.token _ c₂).mono ?_
    rintro _ c₃ ⟨id, rfl, hid⟩
    refine ⟨⟨id, e⟩, rfl, he, ?_⟩
    refine ((hmade₁.trans hmade₂).trans hid).reorder fun i => ?_
    simp [Node.ids, Node.idsAll, List.count_cons]
  refine yields_bind (yields_peek 0 c₁) ?_
  rintro after _ ⟨rfl, -⟩
  refine yields_ite (fun _ => ?_) fun _ => yields_ite (fun _ => yields_fail_bind) fun _ => ?_
  · exact yields_bind (made_skip c₁) fun _ c₂ hskip => hnode c₂ hskip
  · exact hnode c₁ (Made.refl c₁)

/-! ## Blocks

A list of statements is made by a parser of one statement. What that parser makes, inside a loop or
outside, carries over to the list (`made_stmts`). -/

/-- The tree of a statement, inside a loop or not. -/
def IsStmt (inLoop : Bool) (n : Node) : Prop := ∃ s : Stmt, n = s.node ∧ s.Valid inLoop

/-- The tree of a block, inside a loop or not. -/
def IsBlock (inLoop : Bool) (n : Node) : Prop :=
  ∃ (tags : BlockTags) (body : Stmts), n = tags.node body.nodes ∧ body.Valid inLoop

/-- A list has the property of the statements that it is made of. -/
theorem made_stmts {stmt : Parser Node} {P : Node → Prop} (hstmt : Makes stmt P)
    (stops : List String) (fuel : Nat) {c : Cursor} (hc : c.Sound) :
    (stmts stmt stops fuel).Yields c fun ns c' =>
      (∀ n ∈ ns, P n) ∧ Made c (Node.idsAll ns) c' := by
  induction fuel generalizing c with
  | zero => exact yields_bind (yields_peek 0 c) fun _ _ _ => yields_fail
  | succ fuel ih =>
    refine yields_bind (yields_peek 0 c) ?_
    rintro t _ ⟨rfl, -⟩
    refine yields_ite (fun _ => ?_) fun _ => yields_ite (fun _ => yields_pure ?_) fun _ => ?_
    · refine yields_bind (made_skip c) ?_
      intro _ c₁ hskip
      refine (ih (hskip.sound hc)).mono ?_
      rintro ns c₂ ⟨hns, hmade⟩
      exact ⟨hns, hskip.trans hmade⟩
    · exact ⟨by simp, Made.refl c⟩
    · refine yields_bind (hstmt c hc) ?_
      rintro n c₁ ⟨hn, hmade₁⟩
      -- the rest is the same behind a separator and in front of the end of the block
      have hrest : ∀ c₂, Made c₁ [] c₂ → (do return n :: (← stmts stmt stops fuel)).Yields c₂
          fun ns c' => (∀ n ∈ ns, P n) ∧ Made c (Node.idsAll ns) c' := by
        intro c₂ hmade₂
        have hmade₂ := hmade₁.trans hmade₂
        refine yields_bind (ih (hmade₂.sound hc)) ?_
        rintro ns c₃ ⟨hns, hmade₃⟩
        refine yields_pure ⟨by simpa using ⟨hn, hns⟩, ?_⟩
        exact (hmade₂.trans hmade₃).reorder fun i => by simp [Node.idsAll]
      refine yields_bind (yields_peek 0 c₁) ?_
      rintro t _ ⟨rfl, -⟩
      refine yields_ite (fun _ => ?_) fun _ => yields_ite (fun _ => yields_fail_bind) fun _ => ?_
      · exact yields_bind (made_skip c₁) fun _ c₂ hskip => hrest c₂ hskip
      · exact hrest c₁ (Made.refl c₁)

/-- A statement list is a node over statements. -/
theorem made_stmtList {stmt : Parser Node} {P : Node → Prop} (hstmt : Makes stmt P) (fuel : Nat)
    (stops : List String) :
    Makes (stmtList stmt fuel stops) fun n =>
      ∃ (list : Tag) (ns : List Node), n = .mk list.id .stmtList list.token ns ∧ ∀ n ∈ ns, P n := by
  intro c hc
  refine yields_bind (yields_peek 0 c) ?_
  rintro t _ ⟨rfl, -⟩
  refine yields_bind (made_stmts hstmt stops fuel hc) ?_
  rintro ns c₁ ⟨hns, hmade⟩
  refine (made_node .stmtList t ns c₁).mono ?_
  rintro _ c₂ ⟨id, rfl, hid⟩
  refine ⟨⟨⟨id, t⟩, ns, rfl, hns⟩, (hmade.trans hid).reorder fun i => ?_⟩
  simp [Node.ids, List.count_cons]

/-- Trees that are statements one by one are a list of statements of the shape. -/
theorem exists_stmts {inLoop : Bool} {ns : List Node} (h : ∀ n ∈ ns, IsStmt inLoop n) :
    ∃ body : Stmts, ns = body.nodes ∧ body.Valid inLoop := by
  induction ns with
  | nil => exact ⟨.nil, rfl, trivial⟩
  | cons n ns ih =>
    obtain ⟨s, hs, hvalid⟩ := h n List.mem_cons_self
    obtain ⟨body, rfl, hbody⟩ := ih fun m hm => h m (List.mem_cons_of_mem n hm)
    exact ⟨.cons s body, by rw [Stmts.nodes, hs], hvalid, hbody⟩

/-- The body of a construct is a block of the shape. -/
theorem made_body {stmt : Parser Node} {inLoop : Bool} (hstmt : Makes stmt (IsStmt inLoop))
    (fuel : Nat) (stops : List String) : Makes (body stmt fuel stops) (IsBlock inLoop) := by
  intro c hc
  refine yields_bind (yields_peek 0 c) ?_
  rintro t _ ⟨rfl, -⟩
  refine yields_bind (made_stmtList hstmt fuel stops c hc) ?_
  rintro _ c₁ ⟨⟨list, ns, rfl, hns⟩, hmade⟩
  obtain ⟨body, rfl, hbody⟩ := exists_stmts hns
  refine (made_node .body t _ c₁).mono ?_
  rintro _ c₂ ⟨id, rfl, hid⟩
  refine ⟨⟨⟨⟨id, t⟩, list⟩, body, rfl, hbody⟩, (hmade.trans hid).reorder fun i => ?_⟩
  simp [Node.ids, Node.idsAll, List.count_cons]
  omega

/-! ## Branches and loops

The block of a branch is inside a loop if the branch is, and the block of a loop always is. This is
where breaks become valid. -/

variable {expr : Parser Node} {block : List String → Parser Node} {inLoop : Bool}

/-- The arms that are read can stand before any others. -/
theorem made_elsifArms (hexpr : ReadsExprs expr) (hblock : ∀ stops, Makes (block stops) (IsBlock inLoop))
    (fuel : Nat) {c : Cursor} (hc : c.Sound) :
    (elsifArms expr block fuel).Yields c fun ns c' =>
      (∀ rest : Arms, rest.Valid inLoop →
        ∃ arms : Arms, arms.nodes = ns ++ rest.nodes ∧ arms.Valid inLoop) ∧
        Made c (Node.idsAll ns) c' := by
  -- what comes behind these arms is not parsed yet, so the statement is about any arms there
  induction fuel generalizing c with
  | zero => exact yields_bind (yields_peek 0 c) fun _ _ _ => yields_fail
  | succ fuel ih =>
    refine yields_bind (yields_peek 0 c) ?_
    rintro t _ ⟨rfl, -⟩
    refine yields_ite (fun _ => ?_) fun _ => yields_pure ?_
    · refine yields_bind (made_skip c) ?_
      intro _ c₁ hskip
      refine yields_bind (made_condition hexpr "then" (hskip.sound hc)) ?_
      rintro _ c₂ ⟨cond, rfl, hcond, hmade₂⟩
      have hmade₂ := hskip.trans hmade₂
      refine yields_bind (hblock _ c₂ (hmade₂.sound hc)) ?_
      rintro _ c₃ ⟨⟨tags, body, rfl, hbody⟩, hmade₃⟩
      refine yields_bind (made_node .elsifArm t _ c₃) ?_
      rintro _ c₄ ⟨id, rfl, hid⟩
      have hmade₄ := (hmade₂.trans hmade₃).trans hid
      refine yields_bind (ih (hmade₄.sound hc)) ?_
      rintro ns c₅ ⟨hns, hmade₅⟩
      refine yields_pure ⟨fun rest hrest => ?_, ?_⟩
      · obtain ⟨arms, harms, hvalid⟩ := hns rest hrest
        exact ⟨.elsif ⟨id, t⟩ cond tags body arms, by rw [Arms.nodes, harms]; rfl, hcond, hbody,
          hvalid⟩
      · refine (hmade₄.trans hmade₅).reorder fun i => ?_
        simp [Node.ids, Node.idsAll, List.count_cons]
        omega
    · exact ⟨fun rest hrest => ⟨rest, rfl, hrest⟩, Made.refl c⟩

/-- The last arm is an arm of the shape, or there is none. -/
theorem made_elseArm (hblock : ∀ stops, Makes (block stops) (IsBlock inLoop)) {c : Cursor}
    (hc : c.Sound) :
    (elseArm block).Yields c fun ns c' =>
      (∃ arms : Arms, ns = arms.nodes ∧ arms.Valid inLoop ∧ arms.IsLast) ∧
        Made c (Node.idsAll ns) c' := by
  refine yields_bind (yields_peek 0 c) ?_
  rintro t _ ⟨rfl, -⟩
  refine yields_ite (fun _ => ?_) fun _ => yields_pure ⟨⟨.none, rfl, trivial, trivial⟩, .refl c⟩
  refine yields_bind (made_skip c) ?_
  intro _ c₁ hskip
  refine yields_bind (hblock _ c₁ (hskip.sound hc)) ?_
  rintro _ c₂ ⟨⟨tags, body, rfl, hbody⟩, hmade⟩
  refine yields_bind (made_node .elseArm t _ c₂) ?_
  rintro _ c₃ ⟨id, rfl, hid⟩
  refine yields_pure ⟨⟨.last ⟨id, t⟩ tags body, rfl, hbody, trivial⟩, ?_⟩
  refine ((hskip.trans hmade).trans hid).reorder fun i => ?_
  simp [Node.ids, Node.idsAll, List.count_cons]

/-- A branch is a statement of the shape. -/
theorem made_ifStmt (hexpr : ReadsExprs expr) (hblock : ∀ stops, Makes (block stops) (IsBlock inLoop))
    (fuel : Nat) : Makes (ifStmt expr block fuel) (IsStmt inLoop) := by
  intro c hc
  refine yields_bind (made_expectKeyword "if" c) ?_
  intro t c₁ hif
  refine yields_bind (made_condition hexpr "then" (hif.sound hc)) ?_
  rintro _ c₂ ⟨cond, rfl, hcond, hmade₂⟩
  have hmade₂ := hif.trans hmade₂
  refine yields_bind (hblock _ c₂ (hmade₂.sound hc)) ?_
  rintro _ c₃ ⟨⟨tags, body, rfl, hbody⟩, hmade₃⟩
  have hmade₃ := hmade₂.trans hmade₃
  refine yields_bind (made_elsifArms hexpr hblock fuel (hmade₃.sound hc)) ?_
  rintro ns c₄ ⟨hns, hmade₄⟩
  have hmade₄ := hmade₃.trans hmade₄
  refine yields_bind (made_elseArm hblock (hmade₄.sound hc)) ?_
  rintro _ c₅ ⟨⟨last, rfl, hlast, -⟩, hmade₅⟩
  -- the arms with a condition go in front of the last one
  obtain ⟨arms, harms, hvalid⟩ := hns last hlast
  refine yields_bind (made_expectKeyword "end" c₅) ?_
  intro _ c₆ hend
  refine (made_node .ifStmt t _ c₆).mono ?_
  rintro _ c₇ ⟨id, rfl, hid⟩
  refine ⟨⟨.branch ⟨id, t⟩ false cond tags body arms, ?_, hcond, hbody, hvalid, nofun⟩, ?_⟩
  · simp [Stmt.node, harms]
  · refine (((hmade₄.trans hmade₅).trans hend).trans hid).reorder fun i => ?_
    simp [Node.ids, Node.idsAll, Node.idsAll_append, List.count_cons]
    omega

/-- A negated branch is a statement of the shape. -/
theorem made_unlessStmt (hexpr : ReadsExprs expr)
    (hblock : ∀ stops, Makes (block stops) (IsBlock inLoop)) :
    Makes (unlessStmt expr block) (IsStmt inLoop) := by
  intro c hc
  refine yields_bind (made_expectKeyword "unless" c) ?_
  intro t c₁ hunless
  refine yields_bind (made_condition hexpr "then" (hunless.sound hc)) ?_
  rintro _ c₂ ⟨cond, rfl, hcond, hmade₂⟩
  have hmade₂ := hunless.trans hmade₂
  refine yields_bind (hblock _ c₂ (hmade₂.sound hc)) ?_
  rintro _ c₃ ⟨⟨tags, body, rfl, hbody⟩, hmade₃⟩
  have hmade₃ := hmade₂.trans hmade₃
  refine yields_bind (made_elseArm hblock (hmade₃.sound hc)) ?_
  rintro _ c₄ ⟨⟨arms, rfl, harms, hlast⟩, hmade₄⟩
  refine yields_bind (made_expectKeyword "end" c₄) ?_
  intro _ c₅ hend
  refine (made_node .unlessStmt t _ c₅).mono ?_
  rintro _ c₆ ⟨id, rfl, hid⟩
  refine ⟨⟨.branch ⟨id, t⟩ true cond tags body arms, rfl, hcond, hbody, harms, fun _ => hlast⟩, ?_⟩
  refine (((hmade₃.trans hmade₄).trans hend).trans hid).reorder fun i => ?_
  simp [Node.ids, Node.idsAll, List.count_cons]
  omega

/-- A loop with a condition is a statement of the shape, inside a loop or not. -/
theorem made_whileLoop (hexpr : ReadsExprs expr)
    (hblock : ∀ stops, Makes (block stops) (IsBlock true)) :
    Makes (whileLoop expr block) (IsStmt inLoop) := by
  intro c hc
  refine yields_bind (made_expectKeyword "while" c) ?_
  intro t c₁ hwhile
  refine yields_bind (made_condition hexpr "do" (hwhile.sound hc)) ?_
  rintro _ c₂ ⟨cond, rfl, hcond, hmade₂⟩
  have hmade₂ := hwhile.trans hmade₂
  refine yields_bind (hblock _ c₂ (hmade₂.sound hc)) ?_
  rintro _ c₃ ⟨⟨tags, body, rfl, hbody⟩, hmade₃⟩
  refine yields_bind (made_expectKeyword "end" c₃) ?_
  intro _ c₄ hend
  refine (made_node .whileLoop t _ c₄).mono ?_
  rintro _ c₅ ⟨id, rfl, hid⟩
  refine ⟨⟨.whileLoop ⟨id, t⟩ cond tags body, rfl, hcond, hbody⟩, ?_⟩
  refine (((hmade₂.trans hmade₃).trans hend).trans hid).reorder fun i => ?_
  simp [Node.ids, Node.idsAll, List.count_cons]
  omega

/-- A loop with a header is a statement of the shape, inside a loop or not. -/
theorem made_forLoop (hexpr : ReadsExprs expr)
    (hblock : ∀ stops, Makes (block stops) (IsBlock true)) (fuel : Nat) :
    Makes (forLoop expr block fuel) (IsStmt inLoop) := by
  intro c hc
  refine yields_bind (made_expectKeyword "for" c) ?_
  intro t c₁ hfor
  refine yields_bind (made_expect .opening "(" c₁) ?_
  intro _ c₂ hopening
  have hmade₂ := hfor.trans hopening
  refine yields_bind (made_forClause hexpr fuel .forInit ";" (hmade₂.sound hc)) ?_
  rintro _ c₃ ⟨init, rfl, hinit, hmade₃⟩
  refine yields_bind (made_expect .semi ";" c₃) ?_
  intro _ c₄ hsemi
  have hmade₄ := (hmade₂.trans hmade₃).trans hsemi
  refine yields_bind (yields_peek 0 c₄) ?_
  rintro u _ ⟨rfl, hu⟩
  refine yields_bind (made_expr hexpr (hmade₄.sound hc)) ?_
  rintro _ c₅ ⟨e, rfl, he, htoken, hmade₅⟩
  -- the node of the condition has the token at which the expression starts
  obtain rfl : u = e.token := Except.ok.inj (hu.symm.trans htoken)
  refine yields_bind (made_node .cond e.token _ c₅) ?_
  rintro _ c₆ ⟨condId, rfl, hcond⟩
  refine yields_bind (made_expect .semi ";" c₆) ?_
  intro _ c₇ hsemi'
  have hmade₇ := ((hmade₄.trans hmade₅).trans hcond).trans hsemi'
  refine yields_bind (made_forClause hexpr fuel .forStep ")" (hmade₇.sound hc)) ?_
  rintro _ c₈ ⟨step, rfl, hstep, hmade₈⟩
  refine yields_bind (made_expect .closing ")" c₈) ?_
  intro _ c₉ hclosing
  have hmade₉ := (hmade₇.trans hmade₈).trans hclosing
  refine yields_bind (hblock _ c₉ (hmade₉.sound hc)) ?_
  rintro _ c₁₀ ⟨⟨tags, body, rfl, hbody⟩, hmade₁₀⟩
  refine yields_bind (made_expectKeyword "end" c₁₀) ?_
  intro _ c₁₁ hend
  refine (made_node .forLoop t _ c₁₁).mono ?_
  rintro _ c₁₂ ⟨id, rfl, hid⟩
  refine ⟨⟨.forLoop ⟨id, t⟩ init ⟨condId, e⟩ step tags body, rfl, hinit, he, hstep, hbody⟩, ?_⟩
  refine (((hmade₉.trans hmade₁₀).trans hend).trans hid).reorder fun i => ?_
  simp [Node.ids, Node.idsAll, List.count_cons]
  omega

/-! ## Functions

A function stands at the top of a program only, since the parser fails for one inside a block. Its
body is inside no loop. -/

/-- The parameters of a function are names. -/
theorem made_paramNames (fuel : Nat) (c : Cursor) :
    (paramNames fuel).Yields c fun ns c' =>
      (∃ names : List Name, ns = names.map (·.node)) ∧ Made c (Node.idsAll ns) c' := by
  induction fuel generalizing c with
  | zero => exact yields_bind (yields_peek 0 c) fun _ _ _ => yields_fail
  | succ fuel ih =>
    refine yields_bind (made_expectName _ c) ?_
    rintro t c₁ ⟨hname, hmade₁⟩
    refine yields_bind (made_term t c₁) ?_
    rintro _ c₂ ⟨l, rfl, rfl, hl⟩
    have hmade₂ := hmade₁.trans hl
    refine yields_bind (yields_peek 0 c₂) ?_
    rintro _ _ ⟨rfl, -⟩
    refine yields_ite (fun _ => yields_pure ?_) fun _ => ?_
    · exact ⟨⟨[⟨l, hname⟩], rfl⟩, hmade₂⟩
    · refine yields_bind (made_skip c₂) ?_
      intro _ c₃ hskip
      refine yields_bind (made_skipNewlines c₃) ?_
      intro _ c₄ hlines
      refine yields_bind (ih c₄) ?_
      rintro _ c₅ ⟨⟨names, rfl⟩, hmade₅⟩
      refine yields_pure ⟨⟨⟨l, hname⟩ :: names, rfl⟩, ?_⟩
      refine (((hmade₂.trans hskip).trans hlines).trans hmade₅).reorder fun i => ?_
      simp [Node.ids, Node.idsAll, Leaf.node, List.count_cons]

/-- A list of parameters is a node over names, whether there are any or not. -/
theorem made_params (fuel : Nat) (c : Cursor) :
    (params fuel).Yields c fun n c' =>
      (∃ (tag : Tag) (names : List Name),
        n = .mk tag.id .params tag.token (names.map (·.node))) ∧ Made c n.ids c' := by
  refine yields_bind (yields_peek 0 c) ?_
  rintro t _ ⟨rfl, -⟩
  refine yields_bind (made_fresh c) ?_
  intro id c₁ hid
  refine yields_ite (fun _ => ?_) fun _ => yields_ite (fun _ => ?_) fun _ => yields_pure ?_
  · refine yields_bind (made_skip c₁) ?_
    intro _ c₂ hskip
    refine yields_bind (made_skipNewlines c₂) ?_
    intro _ c₃ hlines
    have hmade₃ := (hid.trans hskip).trans hlines
    refine yields_bind (yields_peek 0 c₃) ?_
    rintro u _ ⟨rfl, -⟩
    -- between the brackets there may be no names
    have hnames : (if u.kind ≠ .closing then paramNames fuel else pure []).Yields c₃ fun ns c' =>
        (∃ names : List Name, ns = names.map (·.node)) ∧ Made c₃ (Node.idsAll ns) c' :=
      yields_ite (fun _ => made_paramNames fuel c₃)
        fun _ => yields_pure ⟨⟨[], rfl⟩, Made.refl c₃⟩
    refine yields_ite_bind hnames ?_
    rintro _ c₄ ⟨⟨names, rfl⟩, hmade₄⟩
    refine yields_bind (made_skipNewlines c₄) ?_
    intro _ c₅ hlines'
    refine yields_bind (made_expect .closing ")" c₅) ?_
    intro _ c₆ hclosing
    refine yields_pure ⟨⟨⟨id, t⟩, names, rfl⟩, ?_⟩
    refine (((hmade₃.trans hmade₄).trans hlines').trans hclosing).reorder fun i => ?_
    simp [Node.ids, List.count_cons]
  · refine yields_bind (made_paramNames fuel c₁) ?_
    rintro _ c₂ ⟨⟨names, rfl⟩, hmade⟩
    refine yields_pure ⟨⟨⟨id, t⟩, names, rfl⟩, (hid.trans hmade).reorder fun i => ?_⟩
    simp [Node.ids, List.count_cons]
  · exact ⟨⟨⟨id, t⟩, [], rfl⟩, hid⟩

/-- The tree of a thing at the top of a program, which is no function inside a block. -/
def IsItem (ctx : Context) (n : Node) : Prop :=
  IsStmt ctx.inLoop n ∨
    ctx.inBlock = false ∧ ∃ (parts : FunctionParts) (body : Stmts),
      n = (Item.function parts body).node ∧ body.Valid false

/-- A function is a thing at the top of a program. -/
theorem made_funcDef (hblock : ∀ stops, Makes (block stops) (IsBlock false)) (fuel : Nat)
    (ctx : Context) : Makes (funcDef block fuel ctx.inBlock) (IsItem ctx) := by
  intro c hc
  refine yields_bind (made_expectKeyword "def" c) ?_
  intro t c₁ hdef
  refine yields_ite (fun _ => yields_fail_bind) fun htop => ?_
  refine yields_bind (made_expectName _ c₁) ?_
  rintro name c₂ ⟨hname, hmade₂⟩
  have hmade₂ := hdef.trans hmade₂
  refine yields_bind (made_params fuel c₂) ?_
  rintro _ c₃ ⟨⟨tag, params, rfl⟩, hmade₃⟩
  have hmade₃ := hmade₂.trans hmade₃
  refine yields_bind (hblock _ c₃ (hmade₃.sound hc)) ?_
  rintro _ c₄ ⟨⟨tags, body, rfl, hbody⟩, hmade₄⟩
  refine yields_bind (made_expectKeyword "end" c₄) ?_
  intro _ c₅ hend
  refine yields_bind (made_term name c₅) ?_
  rintro _ c₆ ⟨l, rfl, rfl, hl⟩
  refine (made_node .funcDef t _ c₆).mono ?_
  rintro _ c₇ ⟨id, rfl, hid⟩
  -- outside all blocks, as the check above has found
  refine ⟨.inr ⟨by simpa using htop, ⟨⟨id, t⟩, ⟨l, hname⟩, tag, params, tags⟩, body, rfl, hbody⟩, ?_⟩
  refine ((((hmade₃.trans hmade₄).trans hend).trans hl).trans hid).reorder fun i => ?_
  simp [Node.ids, Node.idsAll, Leaf.node, List.count_cons]
  omega

/-! ## Statements

The productions are put together by induction on the fuel of `stmt`, in which blocks are statements
with less fuel. -/

/-- A call whose result is not used, from its argument list on. -/
theorem made_callStmt {name : Token} (hname : name.isName = true) {c c₁ : Cursor} {id : Int}
    {t : Token} {a : Args} (ha : a.Indexed) (hmade : Made c (Node.mk id .args t a.nodes).ids c₁) :
    (do
      let callee ← term name
      let call ← node .call name [callee, .mk id .args t a.nodes]
      node .callStmt name [call] : Parser Node).Yields c₁ fun n c' =>
      IsStmt inLoop n ∧ Made c n.ids c' := by
  refine yields_bind (made_term name c₁) ?_
  rintro _ c₂ ⟨l, rfl, rfl, hl⟩
  refine yields_bind (made_node .call l.token _ c₂) ?_
  rintro _ c₃ ⟨callId, rfl, hcall⟩
  refine (made_node .callStmt l.token _ c₃).mono ?_
  rintro _ c₄ ⟨stmtId, rfl, hstmt⟩
  refine ⟨⟨.simple (.call stmtId ⟨callId, ⟨l, hname⟩, ⟨id, t⟩⟩ a), rfl, ha⟩, ?_⟩
  refine (((hmade.trans hl).trans hcall).trans hstmt).reorder fun i => ?_
  simp [Node.ids, Node.idsAll, Leaf.node, List.count_cons]
  omega

/-- Looking for the start of an argument does not move the cursor. -/
theorem yields_startsArgument (name t : Token) (c : Cursor) :
    (startsArgument name t).Yields c fun _ c' => c = c' := by
  unfold startsArgument
  split
  iterate 4 exact yields_pure rfl
  · refine yields_ite (fun _ => ?_) fun _ => yields_pure rfl
    refine yields_bind (yields_peek 2 c) ?_
    rintro after _ ⟨rfl, -⟩
    exact yields_pure rfl
  iterate 2 exact yields_pure rfl

/-- A statement that starts with a name is a statement of the shape. -/
theorem made_nameStmt (hexpr : ReadsExprs expr) (fuel : Nat) {c : Cursor} (hc : c.Sound)
    {name : Token} (ht : c.ahead = .ok name) (hname : name.isName = true) :
    (nameStmt expr fuel name).Yields c fun n c' => IsStmt inLoop n ∧ Made c n.ids c' := by
  refine yields_bind (yields_peek 1 c) ?_
  rintro ahead _ ⟨rfl, -⟩
  -- an assignment, a call with brackets, or a call without
  refine yields_ite (fun _ => ?_) fun _ => yields_ite (fun _ => ?_) fun _ => ?_
  · refine (made_assignment hexpr hc ht hname).mono ?_
    rintro n c' ⟨a, rfl, ha, hmade⟩
    exact ⟨⟨.simple (.assignment a), rfl, ha⟩, hmade⟩
  · refine yields_bind (made_skip c) ?_
    intro _ c₁ hskip
    refine yields_bind (yields_call hexpr fuel hname (hskip.sound hc).closed) ?_
    rintro _ c₂ ⟨parts, a, rfl, hcall⟩
    obtain ⟨sig, hread, -⟩ := hcall.read
    have hmade₂ : Made c _ c₂ := hskip.trans ⟨sig, hread⟩
    refine (made_node .callStmt name _ c₂).mono ?_
    rintro _ c₃ ⟨id, rfl, hid⟩
    obtain rfl : parts.callee.token = name := hcall.token_eq
    refine ⟨⟨.simple (.call id parts a), rfl, hcall.indexed⟩, (hmade₂.trans hid).reorder fun i => ?_⟩
    simp [Node.ids, Node.idsAll, List.count_cons]
  · refine yields_bind (yields_startsArgument name ahead c) ?_
    rintro starts _ rfl
    refine yields_ite (fun _ => ?_) fun _ => ?_
    · refine yields_bind (made_skip c) ?_
      intro _ c₁ hskip
      refine yields_bind (yields_args hexpr fuel name false (hskip.sound hc).closed) ?_
      rintro _ c₂ ⟨id, a, rfl, -, ha, sig, hread, -⟩
      exact made_callStmt hname ha (hskip.trans ⟨sig, hread⟩)
    · refine yields_bind (made_skip c) ?_
      intro _ c₁ hskip
      refine yields_bind (made_term name c₁) ?_
      rintro _ c₂ ⟨l, rfl, rfl, hl⟩
      refine yields_bind (made_node .args l.token [] c₂) ?_
      rintro _ c₃ ⟨id, rfl, hid⟩
      refine yields_bind (made_node .call l.token _ c₃) ?_
      rintro _ c₄ ⟨callId, rfl, hcall⟩
      refine (made_node .callStmt l.token _ c₄).mono ?_
      rintro _ c₅ ⟨stmtId, rfl, hstmt⟩
      refine ⟨⟨.simple (.call stmtId ⟨callId, ⟨l, hname⟩, ⟨id, l.token⟩⟩ .nil), rfl, trivial⟩, ?_⟩
      refine ((((hskip.trans hl).trans hid).trans hcall).trans hstmt).reorder fun i => ?_
      simp [Node.ids, Node.idsAll, Leaf.node, List.count_cons]
      omega

/-- An assignment to a global is a statement of the shape. -/
theorem made_globalSet (hexpr : ReadsExprs expr) {t : Token} (hkind : t.kind = .global) {c : Cursor}
    (hc : c.Sound) :
    (do
      skip
      let op ← next
      if !op.isOp "=" then fail op (.globalAssign t.text)
      let global ← term t
      let opTerm ← term op
      let e ← expr
      node .globalSet t [global, opTerm, e] : Parser Node).Yields c fun n c' =>
      IsStmt inLoop n ∧ Made c n.ids c' := by
  refine yields_bind (made_skip c) ?_
  intro _ c₁ hskip
  refine yields_bind (made_next c₁) ?_
  rintro op c₂ ⟨-, hnext⟩
  refine yields_ite (fun _ => yields_fail_bind) fun hequals => ?_
  refine yields_bind (made_term t c₂) ?_
  rintro _ c₃ ⟨g, rfl, rfl, hg⟩
  refine yields_bind (made_term op c₃) ?_
  rintro _ c₄ ⟨o, rfl, rfl, ho⟩
  -- both leaves are made behind the sign
  have hmade₄ := ((hskip.trans hnext).trans hg).trans ho
  refine yields_bind (made_expr hexpr (hmade₄.sound hc)) ?_
  rintro _ c₅ ⟨v, rfl, hv, -, hmade⟩
  refine (made_node .globalSet g.token _ c₅).mono ?_
  rintro _ c₆ ⟨id, rfl, hid⟩
  refine ⟨⟨.simple (.globalSet id ⟨g, hkind⟩ ⟨o, by simpa using hequals⟩ v), rfl, hv⟩, ?_⟩
  refine ((hmade₄.trans hmade).trans hid).reorder fun i => ?_
  simp [Node.ids, Node.idsAll, Leaf.node, List.count_cons]
  omega

/-- A return is a statement of the shape. -/
theorem made_return (hexpr : ReadsExprs expr) (t : Token) {c : Cursor} (hc : c.Sound) :
    (do
      skip
      if (← peek).endsStmt then node .returnStmt t []
      else
        let e ← expr
        node .returnStmt t [e] : Parser Node).Yields c fun n c' =>
      IsStmt inLoop n ∧ Made c n.ids c' := by
  refine yields_bind (made_skip c) ?_
  intro _ c₁ hskip
  refine yields_bind (yields_peek 0 c₁) ?_
  rintro _ _ ⟨rfl, -⟩
  refine yields_ite (fun _ => ?_) fun _ => ?_
  · refine (made_node .returnStmt t [] c₁).mono ?_
    rintro _ c₂ ⟨id, rfl, hid⟩
    exact ⟨⟨.ret ⟨id, t⟩ none, rfl, nofun⟩, hskip.trans hid⟩
  · refine yields_bind (made_expr hexpr (hskip.sound hc)) ?_
    rintro _ c₂ ⟨e, rfl, he, -, hmade⟩
    refine (made_node .returnStmt t _ c₂).mono ?_
    rintro _ c₃ ⟨id, rfl, hid⟩
    refine ⟨⟨.ret ⟨id, t⟩ (some e), rfl, ?_⟩, ?_⟩
    · rintro _ ⟨rfl⟩
      exact he
    · refine ((hskip.trans hmade).trans hid).reorder fun i => ?_
      simp [Node.ids, Node.idsAll, List.count_cons]

/-- A require is a statement of the shape. -/
theorem made_require (t : Token) {c : Cursor} (hc : c.Sound) :
    (do
      skip
      let name ← next
      if name.kind ≠ .string then fail name .requireName
      node .require t [← term name] : Parser Node).Yields c fun n c' =>
      IsStmt inLoop n ∧ Made c n.ids c' := by
  refine yields_bind (made_skip c) ?_
  intro _ c₁ hskip
  refine yields_bind (made_next c₁) ?_
  rintro name c₂ ⟨hname, hnext⟩
  refine yields_ite (fun _ => yields_fail_bind) fun hkind => ?_
  have hkind : name.kind = .string := by simpa using hkind
  -- strings of a source have values
  obtain ⟨v, hv⟩ := (hskip.sound hc).exists_literal hname hkind
  refine yields_bind (made_term name c₂) ?_
  rintro _ c₃ ⟨l, rfl, rfl, hl⟩
  refine (made_node .require t _ c₃).mono ?_
  rintro _ c₄ ⟨id, rfl, hid⟩
  refine ⟨⟨.simple (.require ⟨id, t⟩ ⟨⟨l, v, hv⟩, hkind⟩), rfl, trivial⟩, ?_⟩
  refine (((hskip.trans hnext).trans hl).trans hid).reorder fun i => ?_
  simp [Node.ids, Node.idsAll, Leaf.node, List.count_cons]
  omega

/-- Target code is a statement of the shape. -/
theorem made_inlinePir {t : Token} (hkind : t.kind = .pir) (c : Cursor) :
    (do
      skip
      node .inlinePir t [← term t] : Parser Node).Yields c fun n c' =>
      IsStmt inLoop n ∧ Made c n.ids c' := by
  refine yields_bind (made_skip c) ?_
  intro _ c₁ hskip
  refine yields_bind (made_term t c₁) ?_
  rintro _ c₂ ⟨l, rfl, rfl, hl⟩
  refine (made_node .inlinePir l.token _ c₂).mono ?_
  rintro _ c₃ ⟨id, rfl, hid⟩
  refine ⟨⟨.simple (.target id ⟨l, hkind⟩), rfl, trivial⟩, ?_⟩
  refine ((hskip.trans hl).trans hid).reorder fun i => ?_
  simp [Node.ids, Node.idsAll, Leaf.node, List.count_cons]
  omega

/-- Inside a block there are only statements. -/
theorem IsItem.isStmt {ctx : Context} (hblock : ctx.inBlock = true) {n : Node} (h : IsItem ctx n) :
    IsStmt ctx.inLoop n := by
  obtain h | ⟨htop, -⟩ := h
  · exact h
  · rw [hblock] at htop
    cases htop

/-- A statement in some context is a thing that may stand there. -/
theorem made_stmt (fuel : Nat) (ctx : Context) : Makes (stmt fuel ctx) (IsItem ctx) := by
  induction fuel generalizing ctx with
  | zero =>
    intro c _
    exact yields_bind (yields_peek 0 c) fun _ _ _ => yields_fail
  | succ fuel ih =>
    intro c hc
    have hexpr := readsExprs_expr (fuel + 1)
    -- blocks are parsed with less fuel, and inside them no function is made
    have hblock : ∀ ctx : Context, ctx.inBlock = true → ∀ stops,
        Makes (body (stmt fuel ctx) (fuel + 1) stops) (IsBlock ctx.inLoop) := by
      intro ctx hctx stops
      refine made_body ?_ (fuel + 1) stops
      intro c hc
      exact (ih ctx c hc).mono fun n c' h => ⟨h.1.isStmt hctx, h.2⟩
    have hstmt : ∀ n c', IsStmt ctx.inLoop n ∧ Made c n.ids c' → IsItem ctx n ∧ Made c n.ids c' :=
      fun n c' h => ⟨.inl h.1, h.2⟩
    refine yields_bind (yields_peek 0 c) ?_
    rintro t _ ⟨rfl, ht⟩
    -- by the kind of the token, and names by their text
    split
    · exact (made_inlinePir ‹_› c).mono hstmt
    · exact (made_globalSet hexpr ‹_› hc).mono hstmt
    · split
      · exact made_funcDef (hblock ⟨true, false⟩ rfl) (fuel + 1) ctx c hc
      · exact (made_ifStmt hexpr (hblock ⟨true, ctx.inLoop⟩ rfl) (fuel + 1) c hc).mono hstmt
      · exact (made_unlessStmt hexpr (hblock ⟨true, ctx.inLoop⟩ rfl) c hc).mono hstmt
      · exact (made_whileLoop hexpr (hblock ⟨true, true⟩ rfl) c hc).mono hstmt
      · exact (made_forLoop hexpr (hblock ⟨true, true⟩ rfl) (fuel + 1) c hc).mono hstmt
      · refine yields_bind (made_skip c) ?_
        intro _ c₁ hskip
        refine yields_ite (fun hloop => ?_) fun _ => yields_fail
        refine (made_node .breakStmt t [] c₁).mono ?_
        rintro _ c₂ ⟨id, rfl, hid⟩
        exact ⟨.inl ⟨.brk ⟨id, t⟩, rfl, hloop⟩, hskip.trans hid⟩
      · exact (made_return hexpr t hc).mono hstmt
      · exact (made_require t hc).mono hstmt
      · refine yields_ite (fun hname => ?_) fun _ => yields_fail
        exact (made_nameStmt hexpr (fuel + 1) hc ht hname).mono hstmt
    · exact yields_fail

/-- Trees that are things at the top one by one are the items of a program. -/
theorem exists_items {ns : List Node} (h : ∀ n ∈ ns, IsItem {} n) :
    ∃ items : List Item, ns = items.map Item.node ∧ ∀ i ∈ items, i.Valid := by
  induction ns with
  | nil => exact ⟨[], rfl, by simp⟩
  | cons n ns ih =>
    obtain ⟨items, rfl, hitems⟩ := ih fun m hm => h m (List.mem_cons_of_mem n hm)
    obtain ⟨s, hs, hvalid⟩ | ⟨-, parts, body, hf, hvalid⟩ := h n List.mem_cons_self
    · exact ⟨.stmt s :: items, by rw [hs]; rfl, List.forall_mem_cons.mpr ⟨hvalid, hitems⟩⟩
    · exact ⟨.function parts body :: items, by rw [hf]; rfl,
        List.forall_mem_cons.mpr ⟨hvalid, hitems⟩⟩

/-- A program is a script of the shape. -/
theorem made_program (fuel : Nat) :
    Makes (program fuel) fun n => ∃ s : Script, n = s.node ∧ ∀ i ∈ s.items, i.Valid := by
  intro c hc
  refine yields_bind (yields_peek 0 c) ?_
  rintro t _ ⟨rfl, -⟩
  refine yields_bind (made_stmtList (made_stmt fuel {}) fuel [] c hc) ?_
  rintro _ c₁ ⟨⟨list, ns, rfl, hns⟩, hmade⟩
  obtain ⟨items, rfl, hitems⟩ := exists_items hns
  refine (made_node .program t _ c₁).mono ?_
  rintro _ c₂ ⟨id, rfl, hid⟩
  refine ⟨⟨⟨⟨id, t⟩, list, items⟩, rfl, hitems⟩, (hmade.trans hid).reorder fun i => ?_⟩
  simp [Node.ids, Node.idsAll, List.count_cons]
  omega

end Parser

/-- The parse of a source that succeeds, with the cursor it ends at. -/
theorem exists_run_of_parse {src : Source} {root : Node} (h : parse src = .ok root) :
    ∃ c, (Parser.program ((lex src).tokens.length + 1)).run (.start (lex src)) = .ok (root, c) := by
  unfold parse parseFrom at h
  cases hrun : (Parser.program ((Cursor.start (lex src)).rest.length + 1)).run
      (Cursor.start (lex src)) with
  | error e => rw [hrun] at h; cases h
  | ok r =>
    rw [hrun] at h
    cases h
    exact ⟨r.2, hrun⟩

/-- The tree of a source that parses is that of a program, with all its ids different numbers. -/
theorem exists_script_of_parse {src : Source} {root : Node} (h : parse src = .ok root) :
    ∃ s : Script, root = s.node ∧ (∀ i ∈ s.items, i.Valid) ∧ s.node.ids.Nodup ∧
      ∀ id ∈ s.node.ids, 0 ≤ id := by
  obtain ⟨c, hrun⟩ := exists_run_of_parse h
  obtain ⟨⟨s, rfl, hitems⟩, sig, hread⟩ :=
    Parser.made_program _ _ (Cursor.sound_start src) root c hrun
  refine ⟨s, rfl, hitems, hread.nodup, fun id hid => ?_⟩
  have := hread.le_of_mem hid
  omega

end ScriptPir

import ScriptPir.Proofs.Grouping
import ScriptPir.Proofs.Reading

/-!
# What the expression parser reads

Every expression that the parser makes has a shape, is written by the tokens it took, and is grouped.
The productions are followed in the order in which they call each other: argument lists, calls,
element accesses, operands with and without signs, and last the climb over binary operators.

* `ReadsExpr` — what is proved of a parser for expressions: the tree has a shape, the tokens taken are
  its yield, and it is grouped within the limit of precedence that the parser was called with;
* `Climbed` — the invariant of the climb: what stands to the left so far, and how loose an operator may
  still come;
* `readsWithin_binary` — the climb as a whole, by induction on the fuel.
-/

namespace ScriptPir

open Shape

/-- Between two cursors an expression was read. -/
structure ReadsExpr (c : Cursor) (e : Expr) (c' : Cursor) : Prop where
  ahead : c.ahead = .ok e.token
  read : ∃ sig, Read c sig e.node.ids c' ∧ e.Spells sig
  grouped : e.Grouped
  indexed : e.Indexed

/-- Between two cursors all of an operand but its first token was read. -/
structure ReadsRest (c : Cursor) (t : Token) (e : Expr) (c' : Cursor) : Prop where
  token_eq : e.token = t
  read : ∃ sig, Read c sig e.node.ids c' ∧ e.Spells (t :: sig)
  grouped : e.Grouped
  indexed : e.Indexed
  operand : e.op? = none

/-- Between two cursors arguments were read. -/
structure ReadsArgs (c : Cursor) (a : Args) (c' : Cursor) : Prop where
  read : ∃ sig, Read c sig (Node.idsAll a.nodes) c' ∧ a.Spells sig
  grouped : a.Grouped
  indexed : a.Indexed

/-- What follows an expression is no operator within a limit. -/
def Bounded (limit : Nat) (c : Cursor) : Prop :=
  ∃ t, c.ahead = .ok t ∧ ∀ op, Operator.ofToken? t = some op → limit < op.prec

theorem ReadsExpr.closed {c c' : Cursor} {e : Expr} (h : ReadsExpr c e c') (hc : c.Closed) :
    c'.Closed := by
  obtain ⟨sig, hread, -⟩ := h.read
  exact hread.closed hc

/-- An operand is read once its first token is read too. -/
theorem ReadsRest.readsExpr {c c' : Cursor} {t : Token} {e : Expr}
    (h : ReadsRest c.advanced t e c') (ht : c.ahead = .ok t) (hread : Read c [t] [] c.advanced) :
    ReadsExpr c e c' := by
  obtain ⟨sig, hrest, hsig⟩ := h.read
  exact ⟨by rw [h.token_eq, ht], ⟨_, hread.trans hrest, hsig⟩, h.grouped, h.indexed⟩

namespace Parser

/-- A parser that reads expressions. -/
def ReadsExprs (p : Parser Node) : Prop :=
  ∀ c, c.Closed → p.Yields c fun n c' => ∃ e : Expr, n = e.node ∧ ReadsExpr c e c'

/-! ## Arguments

The loop over arguments is cut into three parsers, so that each has a specification of its own:
whether there is a name, the argument, and the separator behind it (`arguments_succ`). -/

/-- One argument, before the comma or the bracket after it. -/
def argument (expr : Parser Node) (t : Token) (named : Bool) : Parser Node :=
  if named then do
    skip
    skip
    let name ← term t
    let value ← expr
    node .arg t [name, value]
  else do
    let value ← expr
    node .arg t [value]

/-- Whether the argument that starts with a token has a name. -/
def isNamed (t : Token) : Parser Bool :=
  if t.isName then (·.isOp ":") <$> peek 1 else pure false

/-- The comma after an argument, and in brackets the line feeds after it. -/
def separator (bracketed : Bool) : Parser Unit := do
  skip
  if bracketed then skipNewlines

/-- One round of the loop, put together from its parts. -/
theorem arguments_succ (expr : Parser Node) (bracketed : Bool) (fuel : Nat) :
    arguments expr bracketed (fuel + 1) = (do
      let t ← peek
      let named ← isNamed t
      let arg ← argument expr t named
      let after ← peek
      if after.kind ≠ .comma then return [arg]
      separator bracketed
      return arg :: (← arguments expr bracketed fuel)) := by
  rw [arguments]
  congr
  funext t
  have hsep : ∀ arg : Node, (do
      separator bracketed
      return arg :: (← arguments expr bracketed fuel) : Parser (List Node)) = (do
        skip
        if bracketed then skipNewlines
        return arg :: (← arguments expr bracketed fuel)) := by
    intro arg
    cases bracketed <;> simp [separator]
  simp only [hsep, isNamed]
  -- a token that is no name is no argument's name, so the second token is not looked at
  cases t.isName with
  | false => simp [argument]
  | true =>
    simp only [argument, ↓reduceIte, map_eq_pure_bind, bind_assoc, pure_bind]
    congr
    funext ahead
    cases ahead.isOp ":" <;> simp

/-- An argument is its value, with a name and a colon in front or without. -/
theorem yields_argument {expr : Parser Node} (hexpr : ReadsExprs expr) {c : Cursor} (hc : c.Closed)
    {t : Token} (ht : c.ahead = .ok t) {named : Bool}
    (hnamed : named = true → t.isName = true ∧ ∃ k, c.ahead 1 = .ok k ∧ k.isOp ":" = true) :
    (argument expr t named).Yields c fun n c' => ∃ (id : Int) (m : Option Name) (e : Expr),
      [n] = (Args.cons id m e .nil).nodes ∧ e.Grouped ∧ e.Indexed ∧
        ∃ w sig, Read c (w ++ sig) n.ids c' ∧
          List.Forall₂ Piece.Matches (nameYield m) w ∧ e.Spells sig := by
  unfold argument
  refine yields_ite (fun h => ?_) fun _ => ?_
  · obtain ⟨hname, k, hk, hcolon⟩ := hnamed h
    have hkind := (isName_kind hname).1
    have hcolonKind : k.kind = .op := by simp [Token.isOp] at hcolon; exact hcolon.1
    have hread₁ := read_advanced hc ht (by rw [hkind]; decide) (by rw [hkind]; decide)
    have hc₁ := hread₁.closed hc
    have hread₂ := read_advanced hc₁ ((c.ahead_advanced).trans hk) (by rw [hcolonKind]; decide)
      (by rw [hcolonKind]; decide)
    refine yields_bind (yields_skip c) ?_
    rintro _ _ rfl
    refine yields_bind (yields_skip _) ?_
    rintro _ _ rfl
    refine yields_bind (yields_term t _) ?_
    rintro _ c₃ ⟨l, rfl, rfl, hl⟩
    have hread₃ := (hread₁.trans hread₂).trans hl
    refine yields_bind (hexpr c₃ (hread₃.closed hc)) ?_
    rintro _ c₄ ⟨e, rfl, he⟩
    refine (yields_node .arg l.token _ c₄).mono ?_
    rintro n c₅ ⟨id, rfl, hid⟩
    obtain ⟨sig, hread, hsig⟩ := he.read
    refine ⟨id, some ⟨l, hname⟩, e, rfl, he.grouped, he.indexed, [l.token, k], sig, ?_,
      spells_name_some.mpr ⟨k, rfl, hcolon⟩, hsig⟩
    refine ((hread₃.trans hread).trans hid).reorder (by simp) fun i => ?_
    simp [Node.ids, Node.idsAll, Leaf.node, List.count_cons]
    omega
  -- without a name, the argument is told by the first token of its value
  · refine yields_bind (hexpr c hc) ?_
    rintro _ c₁ ⟨e, rfl, he⟩
    refine (yields_node .arg t [e.node] c₁).mono ?_
    rintro n c₂ ⟨id, rfl, hid⟩
    obtain ⟨sig, hread, hsig⟩ := he.read
    obtain rfl : e.token = t := Except.ok.inj (he.ahead.symm.trans ht)
    refine ⟨id, none, e, rfl, he.grouped, he.indexed, [], sig, ?_, spells_name_none.mpr rfl, hsig⟩
    refine (hread.trans hid).reorder (by simp) fun i => ?_
    simp [Node.ids, Node.idsAll, List.count_cons]

/-- Whether an argument has a name is told by looking ahead. -/
theorem yields_isNamed (c : Cursor) (t : Token) :
    (isNamed t).Yields c fun named c' => c = c' ∧
      (named = true → t.isName = true ∧ ∃ k, c.ahead 1 = .ok k ∧ k.isOp ":" = true) := by
  refine yields_ite (fun h => ?_) fun _ => yields_pure ⟨rfl, fun h => nomatch h⟩
  refine yields_map (yields_peek 1 c) ?_
  rintro k _ ⟨rfl, hk⟩
  exact ⟨rfl, fun hcolon => ⟨h, k, hk, hcolon⟩⟩

/-- A separator takes the comma, and in brackets the line feeds behind it. -/
theorem yields_separator (bracketed : Bool) {c : Cursor} (hc : c.Closed) {t : Token}
    (ht : c.ahead = .ok t) (hkind : t.kind = .comma) :
    (separator bracketed).Yields c fun _ c' => Read c [t] [] c' := by
  have hskip := read_advanced hc ht (by rw [hkind]; decide) (by rw [hkind]; decide)
  refine yields_bind (yields_skip c) ?_
  rintro _ _ rfl
  refine yields_ite (fun _ => ?_) fun _ => yields_pure hskip
  exact (yields_skipNewlines _).mono fun _ _ hlines => hskip.trans hlines

/-- The arguments that are read are not empty, and are written by their tokens. -/
theorem yields_arguments {expr : Parser Node} (hexpr : ReadsExprs expr) (bracketed : Bool)
    (fuel : Nat) {c : Cursor} (hc : c.Closed) :
    (arguments expr bracketed fuel).Yields c fun ns c' =>
      ∃ a : Args, ns = a.nodes ∧ a ≠ .nil ∧ ReadsArgs c a c' := by
  -- by induction on the fuel: one argument is read, then a comma and the arguments behind it, or nothing
  induction fuel generalizing c with
  | zero => exact yields_bind (yields_peek 0 c) fun _ _ _ => yields_fail
  | succ fuel ih =>
    rw [arguments_succ]
    refine yields_bind (yields_peek 0 c) ?_
    rintro t _ ⟨rfl, ht⟩
    refine yields_bind (yields_isNamed _ t) ?_
    rintro named _ ⟨rfl, hnamed⟩
    refine yields_bind (yields_argument hexpr hc ht hnamed) ?_
    rintro n c₁ ⟨id, m, e, hn, hgrouped, hindexed, w, sig, hread, hw, hsig⟩
    have hc₁ := hread.closed hc
    refine yields_bind (yields_peek 0 c₁) ?_
    rintro after _ ⟨rfl, hafter⟩
    refine yields_ite (fun _ => yields_pure ?_) fun hcomma => ?_
    · refine ⟨_, hn, by simp, ⟨_, ?_, spells_cons.mpr ⟨w, sig, [], rfl, hw, hsig, rfl⟩⟩,
        ⟨hgrouped, trivial⟩, hindexed, trivial⟩
      refine hread.reorder (by simp) fun i => ?_
      rw [← hn]
      simp [Node.idsAll]
    · have hkind : after.kind = .comma := by simpa using hcomma
      refine yields_bind (yields_separator bracketed hc₁ hafter hkind) ?_
      intro _ c₂ hsep
      have hread₂ := hread.trans hsep
      refine yields_bind (ih (hread₂.closed hc)) ?_
      rintro _ c₃ ⟨a, rfl, hne, hargs⟩
      obtain ⟨sig', hread', hsig'⟩ := hargs.read
      refine yields_pure ⟨.cons id m e a, ?_, by simp, ⟨_, ?_, spells_cons.mpr
        ⟨w, sig, after :: sig', rfl, hw, hsig, ?_⟩⟩, ⟨hgrouped, hargs.grouped⟩, hindexed,
        hargs.indexed⟩
      -- the node of the first argument does not depend on those behind it
      · cases m <;> simp_all [Args.nodes]
      · refine (hread₂.trans hread').reorder (by simp) fun i => ?_
        have hids : n.ids = Node.idsAll (Args.cons id m e .nil).nodes := by
          rw [← hn]; simp [Node.idsAll]
        rw [hids]
        cases m <;> simp [Args.nodes, Node.idsAll]
      · cases a with
        | nil => exact absurd rfl hne
        | cons => exact ⟨after, sig', rfl, hkind, hsig'⟩

/-- They stand under one node. -/
theorem yields_args {expr : Parser Node} (hexpr : ReadsExprs expr) (fuel : Nat) (t : Token)
    (bracketed : Bool) {c : Cursor} (hc : c.Closed) :
    (args expr fuel t bracketed).Yields c fun n c' => ∃ (id : Int) (a : Args),
      n = .mk id .args t a.nodes ∧ a.Grouped ∧ a.Indexed ∧
        ∃ sig, Read c sig n.ids c' ∧ a.Spells sig := by
  refine yields_bind (yields_fresh c) ?_
  intro id c₁ hid
  refine yields_bind (yields_arguments hexpr bracketed fuel (hid.closed hc)) ?_
  rintro _ c₂ ⟨a, rfl, -, ha⟩
  obtain ⟨sig, hread, hsig⟩ := ha.read
  refine yields_pure ⟨id, a, rfl, ha.grouped, ha.indexed, sig, ?_, hsig⟩
  exact (hid.trans hread).reorder rfl fun i => by simp [Node.ids, List.count_cons]

/-! ## Operands

An operand is read behind its first token, which was taken to find out what it is: `ReadsRest` says
what the rest of it adds to that token. -/

/-- A bracket that is expected is taken. -/
theorem yields_bracket (kind : TokenKind) (text : String) {c : Cursor} (hc : c.Closed)
    (hkind : kind ≠ .eof) (hsemi : kind ≠ .semi) :
    (expect kind text).Yields c fun t c' => t.kind = kind ∧ t.text = text ∧ Read c [t] [] c' := by
  refine (yields_expect kind text c).mono ?_
  rintro t _ ⟨rfl, ht, rfl, htext⟩
  exact ⟨rfl, htext, read_advanced hc ht hkind hsemi⟩

/-- A call is its name and its arguments in brackets. -/
theorem yields_call {expr : Parser Node} (hexpr : ReadsExprs expr) (fuel : Nat) {name : Token}
    (hname : name.isName = true) {c : Cursor} (hc : c.Closed) :
    (call expr fuel name).Yields c fun n c' => ∃ (parts : CallParts) (a : Args),
      n = (Expr.call parts a).node ∧ ReadsRest c name (.call parts a) c' := by
  refine yields_bind (yields_bracket .opening "(" hc nofun nofun) ?_
  rintro opening c₁ ⟨hkind, htext, hopening⟩
  refine yields_bind (yields_skipNewlines c₁) ?_
  intro _ c₂ hlines
  have hread₂ := hopening.trans hlines
  refine yields_bind (yields_peek 0 c₂) ?_
  rintro t _ ⟨rfl, -⟩
  -- an empty list of arguments is a node of its own
  have hargs : (if t.kind = .closing then node .args t [] else args expr fuel t true).Yields c₂
      fun n c' => ∃ (id : Int) (a : Args), n = .mk id .args t a.nodes ∧ a.Grouped ∧ a.Indexed ∧
        ∃ sig, Read c₂ sig n.ids c' ∧ a.Spells sig := by
    refine yields_ite (fun _ => ?_) fun _ => yields_args hexpr fuel t true (hread₂.closed hc)
    refine (yields_node .args t [] _).mono ?_
    rintro n c' ⟨id, rfl, hid⟩
    exact ⟨id, .nil, rfl, trivial, trivial, [], hid, spells_nil.mpr rfl⟩
  refine yields_ite_bind hargs ?_
  rintro _ c₃ ⟨id, a, rfl, hgrouped, hindexed, sig, hread, hsig⟩
  refine yields_bind (yields_skipNewlines c₃) ?_
  intro _ c₄ hlines'
  have hread₄ := (hread₂.trans hread).trans hlines'
  refine yields_bind (yields_bracket .closing ")" (hread₄.closed hc) nofun nofun) ?_
  rintro closing c₅ ⟨hkind', htext', hclosing⟩
  refine yields_bind (yields_term name c₅) ?_
  rintro _ c₆ ⟨l, rfl, rfl, hl⟩
  refine (yields_node .call l.token _ c₆).mono ?_
  rintro _ c₇ ⟨callId, rfl, hcall⟩
  refine ⟨⟨callId, ⟨l, hname⟩, ⟨id, t⟩⟩, a, rfl, rfl,
    ⟨opening :: (sig ++ [closing]), ?_, ?_⟩, hgrouped, hindexed, rfl⟩
  · refine (((hread₄.trans hclosing).trans hl).trans hcall).reorder (by simp) fun i => ?_
    simp [Expr.node, Node.ids, Node.idsAll, Leaf.node, List.count_cons]
    omega
  · exact spells_call.mpr ⟨opening, sig, closing, rfl, ⟨hkind, htext⟩, hsig, hkind', htext'⟩

/-- An element is the name of the array and an index in brackets. -/
theorem yields_index {expr : Parser Node} (hexpr : ReadsExprs expr) {name : Token}
    (hname : name.isName = true) {c : Cursor} (hc : c.Closed) :
    (index expr name).Yields c fun n c' => ∃ (parts : ElementParts) (e : Expr),
      n = (Expr.element parts e).node ∧ ReadsRest c name (.element parts e) c' := by
  refine yields_bind (yields_term name c) ?_
  rintro _ c₁ ⟨l, rfl, rfl, hl⟩
  refine yields_bind (yields_node .ident l.token [l.node] c₁) ?_
  rintro _ c₂ ⟨arrayId, rfl, harray⟩
  have hread₂ := hl.trans harray
  refine yields_bind (yields_bracket .opening "[" (hread₂.closed hc) nofun nofun) ?_
  rintro opening c₃ ⟨hkind, htext, hopening⟩
  refine yields_bind (yields_skipNewlines c₃) ?_
  intro _ c₄ hlines
  have hread₄ := (hread₂.trans hopening).trans hlines
  refine yields_bind (hexpr c₄ (hread₄.closed hc)) ?_
  rintro _ c₅ ⟨e, rfl, he⟩
  obtain ⟨sig, hread, hsig⟩ := he.read
  cases hindex : e.node.nonIntegral? with
  -- the check of the index is kept in the shape, for the lowering relies on it
  | some bad => exact yields_fail_bind
  | none =>
    refine yields_bind (yields_skipNewlines c₅) ?_
    intro _ c₆ hlines'
    have hread₆ := (hread₄.trans hread).trans hlines'
    refine yields_bind (yields_bracket .closing "]" (hread₆.closed hc) nofun nofun) ?_
    rintro closing c₇ ⟨hkind', htext', hclosing⟩
    refine yields_bind (yields_term opening c₇) ?_
    rintro _ c₈ ⟨o, rfl, rfl, ho⟩
    refine yields_bind (yields_term closing c₈) ?_
    rintro _ c₉ ⟨d, rfl, rfl, hd⟩
    refine (yields_node .index l.token _ c₉).mono ?_
    rintro _ c₁₀ ⟨id, rfl, hid⟩
    refine ⟨⟨id, arrayId, ⟨l, hname⟩, ⟨o, hkind, htext⟩, ⟨d, hkind', htext'⟩⟩, e, rfl, rfl,
      ⟨o.token :: (sig ++ [d.token]), ?_, spells_element.mpr ⟨sig, rfl, hsig⟩⟩, he.grouped,
      ⟨hindex, he.indexed⟩, rfl⟩
    refine ((((hread₆.trans hclosing).trans ho).trans hd).trans hid).reorder (by simp) fun i => ?_
    simp [Expr.node, Node.ids, Node.idsAll, Leaf.node, List.count_cons]
    omega

/-- A constant, a name and a global are one token each. -/
theorem yields_single (kind : Kind) (t : Token) (c : Cursor) (e : Int → Leaf → Expr)
    (he : ∀ (id : Int) (l : Leaf), l.token = t →
      (e id l).node = .mk id kind t [l.node] ∧ (e id l).Spells [t] ∧ (e id l).Grouped ∧
        (e id l).Indexed ∧ (e id l).op? = none) :
    (do node kind t [← term t] : Parser Node).Yields c fun n c' =>
      ∃ e : Expr, n = e.node ∧ ReadsRest c t e c' := by
  refine yields_bind (yields_term t c) ?_
  rintro _ c₁ ⟨l, rfl, hl, hterm⟩
  refine (yields_node kind t _ c₁).mono ?_
  rintro _ c₂ ⟨id, rfl, hid⟩
  obtain ⟨hnode, hspells, hgrouped, hindexed, hop⟩ := he id l hl
  refine ⟨e id l, hnode.symm, ?_, ⟨[], ?_, hspells⟩, hgrouped, hindexed, hop⟩
  · rw [← Expr.node_token, hnode]
    rfl
  · rw [hnode]
    refine (hterm.trans hid).reorder rfl fun i => ?_
    simp [Node.ids, Node.idsAll, Leaf.node, List.count_cons]
    omega

/-- A token with a value is a constant. -/
theorem yields_constant {t : Token} {v : Value} (h : literal t = .ok v) (c : Cursor) :
    (do node .literal t [← term t] : Parser Node).Yields c fun n c' =>
      ∃ e : Expr, n = e.node ∧ ReadsRest c t e c' := by
  refine yields_single .literal t c (fun id l => .constant id ⟨⟨l.id, t⟩, v, h⟩) ?_
  rintro id l rfl
  exact ⟨rfl, spells_constant.mpr rfl, trivial, trivial, rfl⟩

/-- An expression in brackets is an operand. -/
theorem yields_paren {expr : Parser Node} (hexpr : ReadsExprs expr) {t : Token}
    (hkind : t.kind = .opening) (htext : t.text = "(") {c : Cursor} (hc : c.Closed) :
    (do
      skipNewlines
      let e ← expr
      skipNewlines
      let closing ← expect .closing ")"
      let openTerm ← term t
      let closeTerm ← term closing
      node .paren t [openTerm, e, closeTerm] : Parser Node).Yields c fun n c' =>
      ∃ e : Expr, n = e.node ∧ ReadsRest c t e c' := by
  refine yields_bind (yields_skipNewlines c) ?_
  intro _ c₁ hlines
  refine yields_bind (hexpr c₁ (hlines.closed hc)) ?_
  rintro _ c₂ ⟨e, rfl, he⟩
  obtain ⟨sig, hread, hsig⟩ := he.read
  refine yields_bind (yields_skipNewlines c₂) ?_
  intro _ c₃ hlines'
  have hread₃ := (hlines.trans hread).trans hlines'
  refine yields_bind (yields_bracket .closing ")" (hread₃.closed hc) nofun nofun) ?_
  rintro closing c₄ ⟨hkind', htext', hclosing⟩
  refine yields_bind (yields_term t c₄) ?_
  rintro _ c₅ ⟨o, rfl, rfl, ho⟩
  refine yields_bind (yields_term closing c₅) ?_
  rintro _ c₆ ⟨d, rfl, rfl, hd⟩
  refine (yields_node .paren o.token _ c₆).mono ?_
  rintro _ c₇ ⟨id, rfl, hid⟩
  refine ⟨.paren id ⟨o, hkind, htext⟩ e ⟨d, hkind', htext'⟩, rfl, rfl,
    ⟨sig ++ [d.token], ?_, spells_paren.mpr ⟨sig, rfl, hsig⟩⟩, he.grouped, he.indexed, rfl⟩
  -- the ids of the brackets are taken behind that of the expression, and the node's own comes last
  refine ((((hread₃.trans hclosing).trans ho).trans hd).trans hid).reorder (by simp) fun i => ?_
  simp [Expr.node, Node.ids, Node.idsAll, Leaf.node, List.count_cons]
  omega

/-- An operand is one of these forms, by the kind of its first token. -/
theorem yields_primary {expr : Parser Node} (hexpr : ReadsExprs expr) (fuel : Nat) {c : Cursor}
    (hc : c.Closed) :
    (primary expr fuel).Yields c fun n c' =>
      ∃ e : Expr, n = e.node ∧ ReadsExpr c e c' ∧ e.op? = none := by
  refine yields_bind (yields_next c) ?_
  rintro t _ ⟨rfl, ht⟩
  have hc₁ : c.advanced.Closed := hc
  -- once the kind of the first token is known, the rest of the operand is what is left to read
  have hfinish : t.kind ≠ .eof → t.kind ≠ .semi → ∀ n c',
      (∃ e : Expr, n = e.node ∧ ReadsRest c.advanced t e c') →
        ∃ e : Expr, n = e.node ∧ ReadsExpr c e c' ∧ e.op? = none := by
    rintro heof hsemi n c' ⟨e, rfl, he⟩
    exact ⟨e, rfl, he.readsExpr ht (read_advanced hc ht heof hsemi), he.operand⟩
  split
  iterate 3
    rename_i hkind
    cases hv : literal t with
    | error e => exact yields_fail_bind
    | ok v =>
      exact (yields_constant hv c.advanced).mono
        (hfinish (by rw [hkind]; decide) (by rw [hkind]; decide))
  · rename_i hkind
    refine Yields.mono ?_ (hfinish (by rw [hkind]; decide) (by rw [hkind]; decide))
    refine yields_single .globalRef t _ (fun id l => .global id ⟨⟨l.id, t⟩, hkind⟩) ?_
    rintro id l rfl
    exact ⟨rfl, spells_global.mpr rfl, trivial, trivial, rfl⟩
  · rename_i hkind
    refine yields_ite (fun _ => ?_) fun htext => ?_
    · exact yields_fail_bind
    · exact (yields_paren hexpr hkind (by simpa using htext) hc₁).mono
        (hfinish (by rw [hkind]; decide) (by rw [hkind]; decide))
  · rename_i hkind
    refine Yields.mono ?_ (hfinish (by rw [hkind]; decide) (by rw [hkind]; decide))
    refine yields_ite (fun htext => ?_) fun _ => yields_ite (fun _ => yields_fail) fun hname => ?_
    · obtain htrue | hfalse := htext
      · exact yields_constant (v := .int 1) (by simp [literal, hkind, htrue]) _
      · exact yields_constant (v := .int 0) (by simp [literal, hkind, hfalse]) _
    have hname : t.isName = true := by simpa using hname
    refine yields_bind (yields_peek 0 _) ?_
    rintro ahead _ ⟨rfl, -⟩
    refine yields_ite (fun _ => ?_) fun _ => yields_ite (fun _ => ?_) fun _ => ?_
    · refine (yields_call hexpr fuel hname hc₁).mono ?_
      rintro _ c' ⟨parts, a, rfl, h⟩
      exact ⟨_, rfl, h⟩
    · refine (yields_index hexpr hname hc₁).mono ?_
      rintro _ c' ⟨parts, e, rfl, h⟩
      exact ⟨_, rfl, h⟩
    · refine yields_single .ident t _ (fun id l => .var id ⟨⟨l.id, t⟩, hname⟩) ?_
      rintro id l rfl
      exact ⟨rfl, spells_var.mpr rfl, trivial, trivial, rfl⟩
  · exact yields_fail

/-- Signs stand before an operand, never before an operation. -/
theorem yields_unary {operand : Parser Node}
    (hoperand : ∀ c, c.Closed → operand.Yields c fun n c' =>
      ∃ e : Expr, n = e.node ∧ ReadsExpr c e c' ∧ e.op? = none)
    (fuel : Nat) {c : Cursor} (hc : c.Closed) :
    (unary operand fuel).Yields c fun n c' =>
      ∃ e : Expr, n = e.node ∧ ReadsExpr c e c' ∧ e.op? = none := by
  induction fuel generalizing c with
  | zero => exact yields_bind (yields_peek 0 c) fun _ _ _ => yields_fail
  | succ fuel ih =>
    refine yields_bind (yields_peek 0 c) ?_
    rintro t _ ⟨rfl, ht⟩
    refine yields_ite (fun hsign => ?_) fun _ => hoperand c hc
    -- the sign is a token that counts, so it is the first one of the expression
    have hkind : t.kind ≠ .eof ∧ t.kind ≠ .semi := by
      obtain hop | ⟨hid, -⟩ := isSign_kind hsign
      · simp [hop]
      · simp [hid]
    have hread₁ := read_advanced hc ht hkind.1 hkind.2
    refine yields_bind (yields_skip c) ?_
    rintro _ _ rfl
    refine yields_bind (yields_term t _) ?_
    rintro _ c₂ ⟨l, rfl, rfl, hl⟩
    have hread₂ := hread₁.trans hl
    refine yields_bind (ih (hread₂.closed hc)) ?_
    rintro _ c₃ ⟨e, rfl, he, hop⟩
    refine (yields_node .unary l.token _ c₃).mono ?_
    rintro _ c₄ ⟨id, rfl, hid⟩
    obtain ⟨sig, hread, hsig⟩ := he.read
    refine ⟨.unary id ⟨l, hsign⟩ e, rfl, ⟨ht, ⟨l.token :: sig, ?_, spells_unary.mpr
      ⟨sig, rfl, hsig⟩⟩, ⟨hop, he.grouped⟩, he.indexed⟩, rfl⟩
    refine ((hread₂.trans hread).trans hid).reorder (by simp) fun i => ?_
    simp [Expr.node, Node.ids, Node.idsAll, Leaf.node, List.count_cons]
    omega

/-! ## The climb over operators

The left operand grows round by round. What makes the result grouped is that the right operand was
read within the limit of its operator, and that the next operator was left over by it
(`Climbed.leftOver`). -/

/-- An expression of one operand has no operator that a limit could forbid. -/
theorem within_of_operand {e : Expr} (limit : Nat) (hop : e.op? = none) (hg : e.Grouped) :
    e.Within limit := by
  induction e using Expr.Within.induct with
  | case1 => cases hop
  | case2 id sign operand ih => exact ih hg.1 hg.2
  | case3 e hop' hunary =>
    cases e with
    | operation => cases hop
    | unary => exact absurd rfl (hunary _ _ _)
    | _ => trivial

/-- An expression within a limit is within all looser ones. -/
theorem within_mono {e : Expr} {m n : Nat} (hmn : m ≤ n) (h : e.Within m) : e.Within n := by
  induction e using Expr.Within.induct with
  | case1 id left op right ihl ihr => exact ⟨Nat.le_trans h.1 hmn, ihl h.2.1, ihr h.2.2⟩
  | case2 id sign operand ih => exact ih h
  | case3 e hop hunary =>
    cases e with
    | operation => exact absurd rfl (hop _ _ _ _)
    | unary => exact absurd rfl (hunary _ _ _)
    | _ => trivial

/-- The operator of an expression within a limit binds as tightly. -/
theorem prec_le_of_within {e : Expr} {limit : Nat} {q : Operator} (h : e.Within limit)
    (hq : e.op? = some q) : q.prec ≤ limit := by
  cases e with
  | operation => cases hq; exact h.1
  | _ => cases hq

/-- An operator admits a right operand that was read within its limit. -/
theorem admitsRight_of_within {op : Operator} (hop : op ∈ Operator.table.map (·.2)) {e : Expr}
    (h : e.Within op.limit) : op.AdmitsRight e.op? := by
  intro q hq
  have hle := prec_le_of_within h hq
  have hpos := Operator.prec_pos hop
  unfold Operator.limit at hle
  cases hright : op.right with
  | true => rw [if_pos hright] at hle; simpa using hle
  | false =>
    rw [if_neg (by simp [hright])] at hle
    simp only [Bool.false_eq_true, ↓reduceIte]
    omega

/-- An operator that was left over by the right operand of another admits that one to its left. -/
theorem admitsLeft_of_limit_lt {op q : Operator} (hop : op ∈ Operator.table.map (·.2))
    (hq : q ∈ Operator.table.map (·.2)) (hlt : q.limit < op.prec) :
    op.AdmitsLeft (some q) := by
  rintro _ ⟨rfl⟩
  have hpos := Operator.prec_pos hq
  unfold Operator.limit at hlt
  cases hright : op.right with
  | true =>
    -- equally loose operators group to the same side, so this one is looser
    have hne : q.prec ≠ op.prec := by
      intro heq
      have hsame := Operator.right_eq_of_prec_eq hq hop heq
      rw [hsame, if_pos hright] at hlt
      omega
    simp only [↓reduceIte]
    split at hlt <;> omega
  | false =>
    simp only [Bool.false_eq_true, ↓reduceIte]
    split at hlt <;> omega

/-- A parser that reads expressions within each limit, up to an operator looser than it. -/
def ReadsWithin (p : Nat → Parser Node) : Prop :=
  ∀ limit c, c.Closed → (p limit).Yields c fun n c' =>
    ∃ e : Expr, n = e.node ∧ ReadsExpr c e c' ∧ e.Within limit ∧ Bounded limit c'

/-- What the climb keeps: the expression so far was read from the start, it is within the limit, and
what follows was left over by its last operand. -/
structure Climbed (c₀ : Cursor) (limit : Nat) (e : Expr) (c : Cursor) : Prop where
  reads : ReadsExpr c₀ e c
  within : e.Within limit
  leftOver : ∀ q, e.op? = some q → q ∈ Operator.table.map (·.2) ∧ Bounded q.limit c

/-- One round of the climb: an operator and its right operand are added to the expression. -/
theorem Climbed.round {c₀ c c₁ c₂ c₃ : Cursor} {limit : Nat} {e r : Expr} {t : Token}
    {op : Operator} {l : Leaf} {id : Int} (h : Climbed c₀ limit e c) (ht : c.ahead = .ok t)
    (hop : Operator.ofToken? l.token = some op) (hl : l.token = t) (hle : op.prec ≤ limit)
    (hskip : Read c [t] [] c₁) (hr : ReadsExpr c₁ r c₂) (hwithin : r.Within op.limit)
    (hbounded : Bounded op.limit c₂) (hids : Read c₂ [] [l.id, id] c₃)
    (hahead : c₃.ahead = c₂.ahead) :
    Climbed c₀ limit (.operation id e ⟨l, op, hop⟩ r) c₃ := by
  have hmem := Operator.mem_table hop
  obtain ⟨sig, hread, hsig⟩ := h.reads.read
  obtain ⟨sig', hread', hsig'⟩ := hr.read
  -- what the right operand was read within is no looser than what the climb was started with
  have hlimit : op.limit ≤ limit := by
    unfold Operator.limit
    split <;> omega
  -- the operator was left over by the last operand of the expression so far, so it is looser than the
  -- root of that expression or groups to the left with it
  have hleft : op.AdmitsLeft e.op? := by
    cases hq : e.op? with
    | none => exact nofun
    | some q =>
      obtain ⟨hqmem, t', ht', hlt⟩ := h.leftOver q hq
      obtain rfl : t' = t := Except.ok.inj (ht'.symm.trans ht)
      exact admitsLeft_of_limit_lt hmem hqmem (hlt op (hl ▸ hop))
  have hbounded₃ : Bounded op.limit c₃ := by
    obtain ⟨u, hu, hlt⟩ := hbounded
    exact ⟨u, hahead.trans hu, hlt⟩
  refine ⟨⟨h.reads.ahead, ⟨sig ++ t :: sig', ?_, ?_⟩, ⟨hleft, admitsRight_of_within hmem hwithin,
    h.reads.grouped, hr.grouped⟩, h.reads.indexed, hr.indexed⟩,
    ⟨hle, h.within, within_mono hlimit hwithin⟩, ?_⟩
  · refine (((hread.trans hskip).trans hread').trans hids).reorder (by simp) fun i => ?_
    simp [Expr.node, Node.ids, Node.idsAll, Leaf.node, List.count_cons]
    omega
  · exact spells_operation.mpr ⟨sig, sig', by rw [← hl], hsig, hsig'⟩
  · rintro _ ⟨rfl⟩
    exact ⟨hmem, hbounded₃⟩

/-- The climb ends in an expression within its limit, before an operator that is looser. -/
theorem yields_climb {right : Nat → Parser Node} (hright : ReadsWithin right) (limit fuel : Nat)
    {c₀ c : Cursor} {e : Expr} (hc₀ : c₀.Closed) (h : Climbed c₀ limit e c) :
    (climb right limit fuel e.node).Yields c fun n c' =>
      ∃ e : Expr, n = e.node ∧ ReadsExpr c₀ e c' ∧ e.Within limit ∧ Bounded limit c' := by
  -- by induction on the fuel, which pays for one operator in every round
  induction fuel generalizing c e with
  | zero => exact yields_bind (yields_peek 0 c) fun _ _ _ => yields_fail
  | succ fuel ih =>
    have hc := h.reads.closed hc₀
    rw [climb]
    refine yields_bind (yields_peek 0 c) ?_
    rintro t _ ⟨rfl, ht⟩
    cases hop : Operator.ofToken? t with
    | none =>
      refine yields_pure ⟨e, rfl, h.reads, h.within, t, ht, ?_⟩
      intro op hop'
      rw [hop] at hop'
      cases hop'
    | some op =>
      refine yields_ite (fun hlt => yields_pure ⟨e, rfl, h.reads, h.within, t, ht, ?_⟩) fun hle => ?_
      · intro op' hop'
        rw [hop] at hop'
        cases hop'
        exact hlt
      have hkind : t.kind ≠ .eof ∧ t.kind ≠ .semi := by
        obtain hkind | hkind := Operator.token_kind hop <;> simp [hkind]
      have hskip := read_advanced hc ht hkind.1 hkind.2
      refine yields_bind (yields_skip c) ?_
      rintro _ _ rfl
      refine yields_bind (yields_skipNewlines _) ?_
      intro _ c₁ hlines
      have hread₁ := hskip.trans hlines
      refine yields_bind (hright op.limit c₁ (hread₁.closed hc)) ?_
      rintro _ c₂ ⟨r, rfl, hr, hwithin, hbounded⟩
      refine yields_bind ((yields_term t c₂).and (ahead_of_node .terminal t [] c₂)) ?_
      rintro _ c₃ ⟨⟨l, rfl, hl, hterm⟩, hahead⟩
      refine yields_bind ((yields_node op.kind _ _ c₃).and (ahead_of_node op.kind _ _ c₃)) ?_
      rintro _ c₄ ⟨⟨id, rfl, hid⟩, hahead'⟩
      rw [Expr.node_token]
      exact ih (h.round ht (by rw [hl]; exact hop) hl (by omega) hread₁ hr hwithin hbounded
        (hterm.trans hid) (hahead'.trans hahead))

/-- The parser for binary operators reads expressions within its limit. -/
theorem readsWithin_binary (fuel : Nat) : ReadsWithin (binary fuel) := by
  induction fuel with
  | zero =>
    intro limit c _
    exact yields_bind (yields_peek 0 c) fun _ _ _ => yields_fail
  | succ fuel ih =>
    intro limit c hc
    -- operands contain expressions only inside brackets, where any operator may stand
    have hexpr : ReadsExprs (binary fuel Operator.loosest) := by
      intro c hc
      refine (ih Operator.loosest c hc).mono ?_
      rintro n c' ⟨e, rfl, he, -⟩
      exact ⟨e, rfl, he⟩
    rw [binary]
    refine yields_bind (yields_unary (fun _ => yields_primary hexpr (fuel + 1)) (fuel + 1) hc) ?_
    rintro _ c₁ ⟨e, rfl, he, hop⟩
    refine yields_climb ih limit (fuel + 1) hc ⟨he, within_of_operand limit hop he.grouped, ?_⟩
    intro q hq
    rw [hop] at hq
    cases hq

/-- An expression is a binary one without a limit. -/
theorem readsExprs_expr (fuel : Nat) : ReadsExprs (expr fuel) := by
  intro c hc
  refine (readsWithin_binary fuel Operator.loosest c hc).mono ?_
  rintro n c' ⟨e, rfl, he, -⟩
  exact ⟨e, rfl, he⟩

end Parser

end ScriptPir

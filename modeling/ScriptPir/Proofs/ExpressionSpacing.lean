import ScriptPir.Proofs.Mirroring

/-!
# Line feeds in expressions

Every production for expressions has the same result in all wider layouts of what it takes, as long as what
stands behind it ends an expression in both cases. The productions are followed in the order in which they
call each other; the second run may have more fuel.

Main statement: `replays_expr`.

The two runs are compared by `Repeats`: whatever the first one reads has a layout, and every wider
layout with a proper end behind it makes the second run give the same result. A gap behind an operator
or in brackets is skipped by the parser where it stands, so its width does not matter; elsewhere there
is no gap, and both runs see the same token.
-/

namespace ScriptPir

/-- A layout of an expression. -/
def Expressed (n : Node) (L : List Piece) : Prop := Laid n L ∧ StartsExpr L

theorem Expressed.fronted {n : Node} {L : List Piece} (h : Expressed n L) : Fronted L := h.2.fronted

/-- A node for one token. -/
theorem expressed_single {kind : Kind} (hkind : kind.isRow = true) {t : Token} (hsemi : t.kind ≠ .semi)
    (hop : t.kind ≠ .op) (id leafId : Int) :
    Expressed (.mk id kind t [.mk leafId .terminal t []]) [.token t] :=
  ⟨.row hkind (.leaf leafId t .done), startsExpr_cons hsemi hop ungapped_nil⟩

/-- How some arguments are laid out: in brackets there are gaps behind the commas. -/
def Arranged (bracketed : Bool) (ns : List Node) (L : List Piece) : Prop :=
  if bracketed then Listed Laid ns L else Row Laid ns L

/-- One argument is laid out like its value. -/
theorem arranged_single (bracketed : Bool) {n : Node} {L : List Piece} (hn : Laid n L) :
    Arranged bracketed [n] L := by
  cases bracketed with
  | false => exact Row.single hn
  | true => exact .one hn

/-- A token that is kept is no line feed. -/
theorem Token.ne_semi_of_kept {t : Token} (h : t.isKept = true) : t.kind ≠ .semi := by
  intro hsemi
  rw [Token.isKept, hsemi] at h
  cases h

namespace Parser

/-- A parser for expressions takes layouts of its trees, and a second one finds the same trees in all wider
ones. -/
def Replays (p p' : Parser Node) : Prop := ∀ c, Repeats Meets Expressed p p' c

variable {expr expr' : Parser Node} {fuel fuel' : Nat} {c : Cursor} {t : Token}

/-! ## Arguments

Line feeds may stand behind a comma in brackets only. `Arranged` says so of the layout, and the two
loops skip line feeds at the same places. -/

/-- Whether an argument has a name is seen behind its first token, and never beyond a gap. -/
theorem Repeats.named {β : Type} {H : Sequel} [Extends H Meets] {Q : β → List Piece → Prop}
    {f f' : Bool → Parser β} (ht : c.ahead = .ok t) (hQ : ∀ b L, Q b L → StartsExpr L)
    (hf : ∀ named, (named = true → t.isName = true ∧ ∃ k, c.ahead 1 = .ok k ∧ k.isOp ":" = true) →
      Repeats H Q (f named) (f' named) c) :
    Repeats H Q (isNamed t >>= f) (isNamed t >>= f') c := by
  intro hc
  refine yields_bind ((yields_isNamed c t).and fun _ _ hrun => hrun) ?_
  rintro named _ ⟨⟨rfl, hcolon⟩, hnamed⟩
  refine (hf named hcolon hc).mono ?_
  rintro b c₁ ⟨L, hL, hungapped, hmirrors⟩
  refine ⟨L, hL, hungapped, hmirrors.look fun L' r' hwider h => ⟨named, ?_, rfl⟩⟩
  obtain ⟨u, M, rfl, -, hM, -⟩ := hQ b L hL
  obtain rfl : u = t := Except.ok.inj (hmirrors.ahead_eq.symm.trans ht)
  obtain ⟨M', rfl, htail⟩ := hwider.of_token
  unfold isNamed at hnamed ⊢
  by_cases hname : u.isName = true
  · rw [if_pos hname] at hnamed ⊢
    have hM : Ungapped M := hM.resolve_left fun hopening => by
      rw [(Shape.isName_kind hname).1] at hopening
      cases hopening
    rw [map_eq_pure_bind, StateT.run_bind, run_peek] at hnamed ⊢
    cases hahead : c.ahead 1 with
    | error e => rw [hahead] at hnamed; cases hnamed
    | ok k =>
      rw [hahead] at hnamed
      -- the same token stands behind the name, or one that is no colon
      obtain ⟨k', hk', heq⟩ := hmirrors.exists_second hM htail h hahead
      have hsame : k'.isOp ":" = k.isOp ":" := by
        obtain rfl | ⟨hk, hinert⟩ := heq
        · rfl
        · rw [hk.isOp_eq_false, hinert.isOp_eq_false]
      rw [hk']
      cases hnamed
      show Except.ok (k'.isOp ":", c.on (written (.token u :: M') ++ r')) = _
      rw [hsame]
  · rw [if_neg hname] at hnamed ⊢
    cases hnamed
    rfl

/-- An argument is found again, with its name if it has one. -/
theorem replays_argument (hexpr : Replays expr expr') (ht : c.ahead = .ok t) {named : Bool}
    (hnamed : named = true → t.isName = true ∧ ∃ k, c.ahead 1 = .ok k ∧ k.isOp ":" = true) :
    Repeats Meets Expressed (argument expr t named) (argument expr' t named) c := by
  refine .ite (fun h => ?_) fun _ => ?_
  · obtain ⟨hname, k, hk, hcolon⟩ := hnamed h
    have hident := (Shape.isName_kind hname).1
    refine .skip ht (Token.ne_eof_of_kept (Token.isKept_of_isName hname)) ?_
    refine .skip (c.ahead_advanced.trans hk) (Token.ne_eof_of_isOp hcolon) ?_
    refine .node fun nameId => .bind (hexpr _) fun e E c₁ he => .made fun id => ⟨?_, ?_⟩
    · exact .row rfl (.leaf nameId t (.mute (.inr hcolon) (.child he.1 .done)))
    · exact startsExpr_cons (by rw [hident]; nofun) (by rw [hident]; nofun) (ungapped_cons k _)
  · refine .bind (hexpr c) fun e E c₁ he => .made fun id => ?_
    exact ⟨.row rfl (.child he.1 .done), he.2.append ungapped_nil⟩

/-- Arguments are found again, by induction on the fuel. -/
theorem replays_arguments (hexpr : Replays expr expr') (bracketed : Bool) (hfuel : fuel ≤ fuel') :
    Repeats Meets (fun ns L => Arranged bracketed ns L ∧ StartsExpr L) (arguments expr bracketed fuel)
      (arguments expr' bracketed fuel') c := by
  -- on the fuel: one argument, the comma behind it, and the arguments that follow
  induction fuel generalizing fuel' c with
  | zero => exact .tooDeep
  | succ fuel ih =>
    obtain ⟨fuel', rfl⟩ := Nat.exists_eq_add_of_le' hfuel
    rw [arguments_succ, ← Nat.add_assoc, arguments_succ]
    refine .peek_fronted (fun _ _ h => h.2.fronted) fun t ht => .named ht (fun _ _ h => h.2) fun named hnamed => ?_
    refine .bind (replays_argument hexpr ht hnamed) fun n L c₁ hn => ?_
    refine .peek_meets (fun t t' h h' => by rw [if_pos h.kind_ne_comma, if_pos h'.kind_ne_comma])
      fun after hafter => .ite (fun _ => .pure ?_) fun hcomma => ?_
    · have hL := hn.2.append ungapped_nil
      exact ⟨arranged_single bracketed (by simpa using hn.1), hL⟩
    · have hcomma : after.kind = .comma := by simpa using hcomma
      have hkind : after.kind ≠ .eof := by rw [hcomma]; nofun
      have hL := fun M => hn.2.append (ungapped_cons after M)
      rw [separator, bind_assoc, bind_assoc]
      cases bracketed with
      | false =>
        refine .skip hafter hkind ?_
        rw [if_neg Bool.false_ne_true, pure_bind, pure_bind]
        refine .map (ih (Nat.le_of_succ_le_succ hfuel)) fun ns M hns => ⟨?_, hL M⟩
        have hmute : after.isMute = true := by simp [Token.isMute, hcomma]
        exact Row.child hn.1 (.mute (.inl hmute) hns.1)
      | true =>
        refine .skipLines hafter hkind fun lines c₂ => ?_
        refine .map (ih (Nat.le_of_succ_le_succ hfuel)) fun ns M hns => ⟨hns.2.inline, ?_, hL _⟩
        obtain ⟨first, M, rfl⟩ := hns.2.fronted
        exact Listed.cons lines hcomma hn.1 hns.1

theorem replays_args (hexpr : Replays expr expr') (hfuel : fuel ≤ fuel') (bracketed : Bool) :
    Repeats Meets (fun n L => ∃ id ns, n = .mk id .args t ns ∧ Arranged bracketed ns L ∧ StartsExpr L)
      (args expr fuel t bracketed) (args expr' fuel' t bracketed) c :=
  .fresh fun id => .map (replays_arguments hexpr bracketed hfuel) fun ns _ h => ⟨id, ns, rfl, h⟩

/-! ## Calls and elements

Behind the name both go on with a bracket; the gaps in front of the closing one are what the layout
allows. -/

variable {name : Token}

/-- A call stands behind its name. -/
theorem replays_call (hexpr : Replays expr expr') (hfuel : fuel ≤ fuel') :
    Repeats Free (fun n L => Laid n (.token name :: L) ∧ Fronted L) (call expr fuel name)
      (call expr' fuel' name) c := by
  refine .openingLines fun o lines c₁ ho => ?_
  refine .peek_fronted (fun _ _ h => h.1.fronted) fun t ht => .ite (fun hempty => ?_) fun _ => ?_
  · have hline := isNewline_of_kind (t := t) (by rw [hempty]; nofun)
    refine .node fun argsId => .noLines ht hline fun c₂ => .closing fun d hd => ?_
    refine .node fun calleeId => .made fun id => ?_
    have hstarts := startsInline_closing (kind_of_isClosing hd) []
    exact ⟨hstarts, hstarts, .call ho hd (.leaf calleeId name) (.empty lines), fronted_cons o _⟩
  · refine .inside (replays_args hexpr hfuel true) (fun _ _ ⟨_, _, _, _, h⟩ => h.fronted) ?_
    rintro _ L c₂ ⟨argsId, ns, rfl, hns, hL⟩
    refine .shut fun lines' d c₃ hd => .node fun calleeId => .made fun id => ⟨hL.inline.append _, ?_⟩
    exact ⟨.call ho hd (.leaf calleeId name) (.full lines lines' hns), fronted_cons o _⟩

/-- An element stands behind the name of its array. -/
theorem replays_index (hexpr : Replays expr expr') :
    Repeats Free (fun n L => Laid n (.token name :: L) ∧ Fronted L) (index expr name) (index expr' name)
      c := by
  refine .node fun nameId => .node fun arrayId => .openingLines fun o lines c₁ ho => ?_
  refine .inside (hexpr c₁) (fun _ _ h => h.fronted) fun e E c₂ he => ?_
  cases e.nonIntegral? with
  | some bad => exact Repeats.fail_bind.retakes
  | none =>
    refine .shut fun lines' d c₃ hd => .node fun openId => .node fun closeId => .made fun id => ?_
    have harray : Laid (.mk arrayId .ident name [.mk nameId .terminal name []]) [.token name] :=
      .row rfl (.leaf nameId name .done)
    exact ⟨he.2.inline.append _, .element ho hd harray (.full lines lines' (.one he.1)), fronted_cons o _⟩

/-! ## Operands

An operand is told by its first token, which is the same in all layouts. Where another token is
looked at, it is one that no gap can stand in front of. -/

/-- An expression in brackets, behind the opening one. -/
def paren (expr : Parser Node) (t : Token) : Parser Node := do
  skipNewlines
  let e ← expr
  skipNewlines
  let closing ← expect .closing ")"
  let openTerm ← term t
  let closeTerm ← term closing
  node .paren t [openTerm, e, closeTerm]

/-- An expression in brackets is found again, with gaps around it. -/
theorem replays_paren (hexpr : Replays expr expr') (ho : t.isOpening "(" = true) :
    Retakes Meets (fun n L => Laid n (.token t :: L)) (paren expr t) (paren expr' t) c := by
  refine .gap fun lines c₁ => .inside (hexpr c₁) (fun _ _ h => h.fronted) fun e E c₂ he => ?_
  refine .shut fun lines' d c₃ hd => .node fun openId => .node fun closeId => .made fun id => ?_
  exact ⟨he.2.inline.append _, .paren ho hd (.full lines lines' (.one he.1))⟩

/-- An operand is found again. -/
theorem replays_primary (hexpr : Replays expr expr') (hfuel : fuel ≤ fuel') :
    Replays (primary expr fuel) (primary expr' fuel') := by
  refine fun c => .next fun t _ => ?_
  cases hkind : t.kind with
  | int | float | string =>
    cases literal t with
    | error e => exact Repeats.fail_bind.retakes
    | ok v =>
      refine Repeats.retakes (.node fun leafId => .made fun id => ⟨by decide, expressed_single rfl ?_ ?_ ..⟩)
      all_goals rw [hkind]; decide
  | global =>
    refine Repeats.retakes (.node fun leafId => .made fun id => ⟨by decide, expressed_single rfl ?_ ?_ ..⟩)
    all_goals rw [hkind]; decide
  | opening =>
    refine Retakes.ite (fun _ => Repeats.fail_bind.retakes) fun htext => ?_
    have ho : t.isOpening "(" = true := by simpa [Token.isOpening, hkind] using htext
    refine (replays_paren hexpr ho).mono fun n L hn => ⟨by decide, hn, t, L, rfl, ?_, .inl hkind, ?_⟩
    · exact isNewline_of_kind (by rw [hkind]; decide)
    · rw [hkind]
      exact fun h => absurd h (by decide)
  | ident =>
    have hsemi : t.kind ≠ .semi := by rw [hkind]; decide
    have hop : t.kind ≠ .op := by rw [hkind]; decide
    -- one token is the same in every layout
    have hsingle : ∀ {kind : Kind} {c : Cursor}, kind.isRow = true →
        Repeats Meets (fun n L => TokenKind.ident ≠ .eof ∧ Expressed n (.token t :: L))
          (do node kind t [← term t]) (do node kind t [← term t]) c :=
      fun hrow => .node fun leafId => .made fun id => ⟨by decide, expressed_single hrow hsemi hop ..⟩
    refine Repeats.retakes (.ite (fun _ => hsingle rfl) fun _ => .ite (fun _ => .fail) fun _ => ?_)
    -- what follows a name decides its form, and what ends an expression is no opening bracket
    refine .peek_meets (fun u u' h h' => ?_) fun ahead _ => .ite (fun _ => ?_) fun _ => .ite (fun _ => ?_) fun _ => ?_
    · simp [h.isOpening_eq_false, h'.isOpening_eq_false]
    · refine (replays_call hexpr hfuel).weaken.mono fun n L hn => ⟨by decide, hn.1, ?_⟩
      exact startsExpr_cons hsemi hop hn.2.ungapped
    · refine (replays_index hexpr).weaken.mono fun n L hn => ⟨by decide, hn.1, ?_⟩
      exact startsExpr_cons hsemi hop hn.2.ungapped
    · exact hsingle rfl
  | _ => exact Repeats.fail.retakes

/-- An operand with signs is found again. -/
theorem replays_unary {operand operand' : Parser Node} (hoperand : Replays operand operand')
    (hfuel : fuel ≤ fuel') : Replays (unary operand fuel) (unary operand' fuel') := by
  induction fuel generalizing fuel' with
  | zero => exact fun c => .tooDeep
  | succ fuel ih =>
    obtain ⟨fuel', rfl⟩ := Nat.exists_eq_add_of_le' hfuel
    refine fun c => .peek_fronted (fun _ _ h => h.fronted) fun t ht => .ite (fun hsign => ?_) fun _ => hoperand c
    have hkept := Token.isKept_of_isSign hsign
    refine .skip ht (Token.ne_eof_of_kept hkept) (.node fun opId => ?_)
    refine .bind (ih (Nat.le_of_succ_le_succ hfuel) _) fun e E c₁ he => .made fun id => ⟨?_, ?_⟩
    · exact .row rfl (.leaf opId t (.child he.1 .done))
    · exact startsExpr_sign (Token.ne_semi_of_kept hkept) (he.fronted.append [])

/-! ## Binary operators

Gaps may stand behind an operator. What is read in front of it is fixed already, so the climb is
followed with the layout of the left operand as a parameter. -/

/-- The climb goes on behind the left operand. -/
theorem replays_climb {right right' : Nat → Parser Node}
    (hright : ∀ limit, Replays (right limit) (right' limit)) (limit : Nat) (hfuel : fuel ≤ fuel')
    {left : Node} :
    Repeats Meets (fun n M => Ungapped M ∧ ∀ L, Laid left L → Laid n (L ++ M)) (climb right limit fuel left)
      (climb right' limit fuel' left) c := by
  induction fuel generalizing fuel' left c with
  | zero => exact .tooDeep
  | succ fuel ih =>
    obtain ⟨fuel', rfl⟩ := Nat.exists_eq_add_of_le' hfuel
    have hstop : ∀ L, Laid left L → Laid left (L ++ []) := fun L hL => by rwa [List.append_nil]
    rw [climb, ← Nat.add_assoc, climb]
    refine .peek_meets (fun t t' h h' => by rw [h.not_operator, h'.not_operator]) fun t ht => ?_
    -- the climb stops at the same token, as what may follow an expression is no operator
    cases hop : Operator.ofToken? t with
    | none => exact .pure ⟨ungapped_nil, hstop⟩
    | some op =>
      refine .ite (fun _ => .pure ⟨ungapped_nil, hstop⟩) fun _ => ?_
      refine .skipLines ht (Token.ne_eof_of_kept (Token.isKept_of_operator hop)) fun lines c₁ => ?_
      refine .bind (hright op.limit c₁) fun r R c₂ hr => .node fun opId => .node fun id => ?_
      refine (ih (Nat.le_of_succ_le_succ hfuel)).mono fun n M hn => ?_
      refine ⟨hr.2.inline.append M, ungapped_cons t _, fun L hL => ?_⟩
      obtain ⟨first, R, rfl⟩ := hr.fronted
      have hwhole := hn.2 _ (.operation lines hop hL hr.1)
      simpa using hwhole

/-- A binary expression is found again, by induction on the fuel. -/
theorem replays_binary (hfuel : fuel ≤ fuel') (limit : Nat) :
    Replays (binary fuel limit) (binary fuel' limit) := by
  -- operands are parsed with less fuel
  induction fuel generalizing fuel' limit with
  | zero => exact fun c => .tooDeep
  | succ fuel ih =>
    obtain ⟨fuel', rfl⟩ := Nat.exists_eq_add_of_le' hfuel
    have hright := fun limit => ih (Nat.le_of_succ_le_succ hfuel) limit
    refine fun c => .bind (replays_unary (replays_primary (hright _) hfuel) hfuel c) fun left L c₁ hleft => ?_
    exact (replays_climb hright limit hfuel).mono fun n M hn => ⟨hn.2 L hleft.1, hleft.2.append hn.1⟩

theorem replays_expr (hfuel : fuel ≤ fuel') : Replays (Parser.expr fuel) (Parser.expr fuel') :=
  replays_binary hfuel _

end Parser

end ScriptPir

import ScriptPir.Proofs.ExpressionSpacing
import ScriptPir.Proofs.StatementGrowth
import ScriptPir.Proofs.StatementLeaves

/-!
# Line feeds in programs

The module on expressions, continued: all productions for statements, and whole programs. Behind a list of
statements the same token stands in a layout and in all wider ones, and behind a statement that is no
operator.

Main statement: `newlines_insignificant`.

Where gaps may be is known from the tree: only expressions, calls and lists of parameters have any. What
remains for statements is to see that the parser makes the same choices in both runs. It chooses by a
token ahead, so the proofs say of each production with which token it starts (`Compact`, `Fronted`), and
of what ends it that it is met in both.

* `repeats_nameStmt` — the hardest choice, as it depends on the places of up to three tokens;
* `repeats_stmts` — statements end at the same tokens in both runs;
* `repeats_stmt` — all statements, by induction on the fuel.
-/

namespace ScriptPir

namespace Parser

variable {expr expr' : Parser Node} {block block' : List String → Parser Node} {fuel fuel' : Nat}
  {c : Cursor} {t : Token}

section Blocks

variable (hexpr : Replays expr expr') (hblock : ∀ stops c, Repeats Heads Laid (block stops) (block' stops) c)

/-! ## Branches and loops with a condition

These have no gaps of their own: the line feed that ends a condition is a token that both layouts
have. Their gaps are those of the condition and the blocks. -/

include hexpr

/-- A condition is read in wider layouts as well. -/
theorem repeats_condition {word : String} (hword : word ∈ Token.keywords ∧ word ∉ Token.operandWords) :
    Repeats Heads Laid (condition expr word) (condition expr' word) c := by
  refine .peek fun t _ => .bind (hexpr c) fun e E c₁ he => .peek fun after hafter => ?_
  refine .ite (fun hkeyword => ?_) fun _ => .ite (fun _ => .fail_bind) fun _ => ?_
  · refine .skipKeyword hafter hkeyword hword fun hmute => .made fun id => ?_
    exact .row rfl (.child he.1 (.mute (.inl hmute) .done))
  · exact .made fun id => .row rfl (.child he.1 .done)

include hblock

omit hexpr in
/-- The last arm is read in wider layouts as well. -/
theorem repeats_elseArm : Repeats Heads (Row Laid) (elseArm block) (elseArm block') c := by
  refine .peek fun t ht => .ite (fun hword => ?_) fun _ => .pure .done
  refine .skipKeyword ht hword (by decide) fun helse => .bind (hblock _ _) fun b L c₁ hb => ?_
  refine .node fun id => .pure (.mute (.inl helse) ?_)
  exact .child (.row rfl (.single hb)) .done

/-- Further arms with a condition are read in wider layouts as well. -/
theorem repeats_elsifArms (hfuel : fuel ≤ fuel') :
    Repeats Heads (Row Laid) (elsifArms expr block fuel) (elsifArms expr' block' fuel') c := by
  induction fuel generalizing fuel' c with
  | zero => exact .tooDeep
  | succ fuel ih =>
    obtain ⟨fuel', rfl⟩ := Nat.exists_eq_add_of_le' hfuel
    refine .peek fun t ht => .ite (fun hword => ?_) fun _ => .pure .done
    refine .skipKeyword ht hword (by decide) fun helsif => ?_
    refine .bind (repeats_condition hexpr (by decide)) fun cond L c₁ hcond => ?_
    refine .bind (hblock _ c₁) fun b M c₂ hb => .node fun id => ?_
    refine .map (ih (Nat.le_of_succ_le_succ hfuel)) fun arms N harms => .mute (.inl helsif) ?_
    rw [← List.append_assoc]
    exact .child (.row rfl (.child hcond (.single hb))) harms

/-- A branch is read in wider layouts as well. -/
theorem repeats_ifStmt (hfuel : fuel ≤ fuel') :
    Repeats Apart Laid (ifStmt expr block fuel) (ifStmt expr' block' fuel') c := by
  refine .keyword (by decide) fun t hif => ?_
  refine .bind (repeats_condition hexpr (by decide)) fun cond L c₁ hcond => ?_
  refine .bind (hblock _ c₁) fun b M c₂ hb => ?_
  refine .bind (repeats_elsifArms hexpr hblock hfuel) fun arms A c₃ harms => ?_
  refine .bind (repeats_elseArm hblock) fun last N c₄ hlast => ?_
  refine .keyword (by decide) fun e hend => .made fun id => .row rfl ?_
  exact .mute (.inl hif) (.child hcond (.child hb (harms.append (hlast.closed hend))))

/-- A negated branch is read in wider layouts as well. -/
theorem repeats_unlessStmt : Repeats Apart Laid (unlessStmt expr block) (unlessStmt expr' block') c := by
  refine .keyword (by decide) fun t hunless => ?_
  refine .bind (repeats_condition hexpr (by decide)) fun cond L c₁ hcond => ?_
  refine .bind (hblock _ c₁) fun b M c₂ hb => ?_
  refine .bind (repeats_elseArm hblock) fun last N c₃ hlast => ?_
  refine .keyword (by decide) fun e hend => .made fun id => .row rfl ?_
  exact .mute (.inl hunless) (.child hcond (.child hb (hlast.closed hend)))

/-- A loop with a condition is read in wider layouts as well. -/
theorem repeats_whileLoop : Repeats Apart Laid (whileLoop expr block) (whileLoop expr' block') c := by
  refine .keyword (by decide) fun t hwhile => ?_
  refine .bind (repeats_condition hexpr (by decide)) fun cond L c₁ hcond => ?_
  refine .bind (hblock _ c₁) fun b M c₂ hb => ?_
  refine .keyword (by decide) fun e hend => .made fun id => .row rfl ?_
  exact .mute (.inl hwhile) (.child hcond (.child hb (.mute (.inl hend) .done)))

end Blocks

/-! ## Lists of statements

What separates statements stands in both layouts alike. It has to be shown that a statement ends at
the same token in both, although the parser looks at that token to find out whether the statement
goes on. -/

/-- What ends a statement is no operator. -/
theorem Repeats.ended {α β : Type} {P : α → List Piece → Prop} {Q : β → List Piece → Prop}
    {p p' : Parser α} {f f' : α → Parser β} (hp : Repeats Apart P p p' c)
    (hop : ∀ a t c₁, c₁.ahead = .ok t → t.kind = .op → (f a).Yields c₁ fun _ _ => False)
    (hf : ∀ a L c₁, P a L → Repeats Heads (fun b M => Q b (L ++ M)) (f a) (f' a) c₁) :
    Repeats Heads Q (p >>= f) (p' >>= f') c := by
  intro hc
  refine yields_bind (hp hc) ?_
  rintro a c₁ ⟨L, hP, hL, hmirrors⟩ b c₂ hrun
  obtain ⟨M, hQ, hM, hrest⟩ := hf a L c₁ hP (hmirrors.closed hc) b c₂ hrun
  refine ⟨L ++ M, hQ, hL.append hM, hmirrors.bind hrest fun M' r' hwider hheads => ?_⟩
  refine ⟨Extends.extend hM hwider hheads, fun t ht hkind => ?_⟩
  rw [← hrest.rest_eq, List.head?_eq_getElem?] at ht
  exact hop a t c₁ (by rw [Cursor.ahead, ht]) hkind b c₂ hrun

/-- A list of statements is read in wider layouts as well, statement by statement. -/
theorem repeats_stmts {stmt stmt' : Parser Node} (hstmt : ∀ c, Repeats Apart Laid stmt stmt' c)
    (stops : List String) (hfuel : fuel ≤ fuel') :
    Repeats Heads (Row Laid) (stmts stmt stops fuel) (stmts stmt' stops fuel') c := by
  -- on the fuel: a separator, or a statement with what separates it from the rest
  induction fuel generalizing fuel' c with
  | zero => exact .tooDeep
  | succ fuel ih =>
    obtain ⟨fuel', rfl⟩ := Nat.exists_eq_add_of_le' hfuel
    have hmute : ∀ {t : Token}, t.kind = .semi → t.isMute = true := fun h => by simp [Token.isMute, h]
    have hstmts : ∀ {c}, Repeats Heads (Row Laid) (stmts stmt stops fuel) (stmts stmt' stops _) c :=
      ih (Nat.le_of_succ_le_succ hfuel)
    refine .peek fun t ht => .ite (fun hsemi => ?_) fun _ => .ite (fun _ => .pure .done) fun _ => ?_
    · refine .skip ht (Token.ne_eof_of_mute (hmute hsemi)) ?_
      exact hstmts.mono fun ns L hns => .mute (.inl (hmute hsemi)) hns
    refine .ended (hstmt c) ?_ fun n L c₁ hn => .peek fun after hafter => ?_
    · intro n u c₁ hu hop
      refine yields_bind (yields_peek 0 c₁) ?_
      rintro after _ ⟨rfl, hafter⟩
      obtain rfl : u = after := Except.ok.inj (hu.symm.trans hafter)
      rw [if_neg (by rw [hop]; decide), if_pos (by simp [endsBlock, hop])]
      exact yields_fail_bind
    · refine .ite (fun hsemi => ?_) fun _ => .ite (fun _ => .fail_bind) fun _ => ?_
      · refine .skip hafter (Token.ne_eof_of_mute (hmute hsemi)) ?_
        exact .map hstmts fun ns M hns => .child hn (.mute (.inl (hmute hsemi)) hns)
      · exact .map hstmts fun ns M hns => .child hn hns

/-- A block of statements is read in wider layouts as well. -/
theorem repeats_stmtList {stmt stmt' : Parser Node} (hstmt : ∀ c, Repeats Apart Laid stmt stmt' c)
    (hfuel : fuel ≤ fuel') (stops : List String) :
    Repeats Heads Laid (stmtList stmt fuel stops) (stmtList stmt' fuel' stops) c := by
  refine .peek fun t _ => .bind (repeats_stmts hstmt stops hfuel) fun ns L c₁ hns => ?_
  refine .made fun id => .row rfl ?_
  rwa [List.append_nil]

/-- The body of a construct is read in wider layouts as well. -/
theorem repeats_body {stmt stmt' : Parser Node} (hstmt : ∀ c, Repeats Apart Laid stmt stmt' c)
    (hfuel : fuel ≤ fuel') (stops : List String) :
    Repeats Heads Laid (body stmt fuel stops) (body stmt' fuel' stops) c := by
  refine .peek fun t _ => .bind (repeats_stmtList hstmt hfuel stops) fun list L c₁ hlist => ?_
  exact .made fun id => .row rfl (.child hlist .done)

/-! ## Assignments

Line feeds behind an equals sign are no gap, but tokens of both layouts. What was assigned is told by
the token behind the sign, so a layout may have no gap there. -/

section Assignments

variable (hexpr : Replays expr expr')

include hexpr

/-- What is assigned is read in wider layouts as well. -/
theorem repeats_assigned {name op : Token}
    (hlook : t.kind = .opening ∨ t.kind = .global → c.ahead = .ok t) :
    Repeats Heads (fun n L => Laid n (.token name :: .token op :: L)) (assigned expr name op t)
      (assigned expr' name op t) c := by
  refine .ite (fun ho => ?_) fun _ => .second fun fromGlobal hglobal => .ite (fun htrue => ?_) fun _ => ?_
  -- the bracket of a new array has to stand here, so it is the token ahead
  · have hkind : t.kind = .opening := by
      simp only [Token.isOpening, Bool.and_eq_true, decide_eq_true_eq] at ho
      exact ho.1
    refine .skip (hlook (.inl hkind)) (by rw [hkind]; decide) ?_
    refine .checked (fun d heof => by simp [heof]) fun d hclosing => ?_
    refine .node fun nameId => .node fun opId => .made fun id => ?_
    have hd : d.isClosing "]" = true := by simpa [Token.isClosing] using hclosing
    exact .array ho hd (.leaf nameId name (.leaf opId op .done))
  · have hkind := hglobal htrue
    refine .skip (hlook (.inr hkind)) (by rw [hkind]; decide) ?_
    refine .node fun nameId => .node fun opId => .node fun globalId => .made fun id => ⟨?_, ?_⟩
    · exact .row rfl (.leaf nameId name (.leaf opId op (.leaf globalId t .done)))
    · exact fun _ => ⟨t, [], rfl, fun _ => ungapped_nil⟩
  · refine .lines fun ts c₁ hts => .node fun nameId => .node fun opId => .bind (hexpr _) fun e E c₂ he => ?_
    have hleads := he.2.append ungapped_nil
    refine .made fun id => ⟨hleads.inline, .row rfl ?_, fun hkind => ?_⟩
    · have hmute : ∀ t ∈ ts, t.isMute = true := fun t ht => Token.isMute_of_isNewline (hts t ht)
      exact .leaf nameId name (.leaf opId op (.mutes hmute (.child he.1 .done)))
    -- if line feeds were skipped, the token ahead is one of them and no global
    · cases ts with
      | nil =>
        obtain ⟨u, M, hM, -, hbehind, -⟩ := hleads
        refine ⟨u, M, hM, fun hu => hbehind.resolve_left ?_⟩
        rw [← Except.ok.inj ((hlook (.inr hkind)).symm.trans hu), hkind]
        decide
      | cons line ts =>
        refine ⟨line, ts.map .token ++ (E ++ []), rfl, fun _ => ?_⟩
        exact ungapped_tokens ts hleads.fronted.ungapped

/-- An assignment is read from its name on in wider layouts as well. -/
theorem repeats_assignTo (name : Token) :
    Repeats Heads (fun n L => Laid n (.token name :: L) ∧ Fronted L) (assignTo expr name)
      (assignTo expr' name) c := by
  refine .peek fun t _ => .ite (fun _ => ?_) fun _ => ?_
  · refine .bind (replays_index hexpr) fun target L c₁ htarget => ?_
    refine .checked (fun op heof => by simp [Token.isOp, heof]) fun op _ => .node fun opId => ?_
    refine .bind (hexpr _) fun e E c₂ he => .made fun id => ⟨.row rfl ?_, htarget.2.append _⟩
    exact Row.child htarget.1 (.leaf opId op (.child he.1 .done))
  · refine .checked (fun op heof => by simp [Token.isAssign, heof]) fun op hassign => ?_
    have hkind : op.kind = .op := by
      simp only [Token.isAssign, Bool.not_eq_true', Bool.not_eq_false, Bool.and_eq_true,
        decide_eq_true_eq] at hassign
      exact hassign.1
    -- the token looked at is the operator itself unless that is a plain equals sign
    refine .ite (fun _ => .peek fun u hu => ?_) fun _ => ?_
    · exact (repeats_assigned hexpr fun _ => hu).mono fun n L hn => ⟨hn, fronted_cons op L⟩
    · rw [pure_bind, pure_bind]
      refine (repeats_assigned hexpr ?_).mono fun n L hn => ⟨hn, fronted_cons op L⟩
      simp [hkind]

/-- Assignments of all sorts are read in wider layouts as well. -/
theorem repeats_assignment (ht : c.ahead = .ok t) (hkind : t.kind ≠ .eof) :
    Repeats Heads (fun n L => Laid n L ∧ ∃ M, L = .token t :: M ∧ Fronted M) (assignment expr)
      (assignment expr') c := by
  rw [assignment_eq, assignment_eq]
  refine .next fun name hname => ?_
  obtain rfl : t = name := Except.ok.inj (ht.symm.trans hname)
  exact ((repeats_assignTo hexpr t).mono fun n L h => ⟨hkind, h.1, L, rfl, h.2⟩).retakes

/-! ## Loop headers

A header has brackets of its own, but no gaps at them and none behind its commas: a line feed there
is a syntax error. -/

/-- The assignments of a loop header are read in wider layouts as well. -/
theorem repeats_forAssignments (hfuel : fuel ≤ fuel') :
    Repeats Heads (Row Laid) (forAssignments expr fuel) (forAssignments expr' fuel') c := by
  induction fuel generalizing fuel' c with
  | zero => exact .tooDeep
  | succ fuel ih =>
    obtain ⟨fuel', rfl⟩ := Nat.exists_eq_add_of_le' hfuel
    refine .peek fun t ht => .second fun starts hstarts => .ite (fun _ => .fail_bind) fun htrue => ?_
    have hname : t.isName = true := hstarts (by simpa using htrue)
    refine .bind (repeats_assignment hexpr ht (Token.ne_eof_of_kept (Token.isKept_of_isName hname))) ?_
    rintro a _ c₁ ⟨ha, M, rfl, hM⟩
    -- a header starts with a name, behind which there is no gap
    have hcompact : ∀ N, Compact c (.token t :: M ++ N) := fun N => ⟨t, M ++ N, rfl, fun _ => (hM.append N).ungapped⟩
    refine .peek fun after hafter => .ite (fun _ => ?_) fun hcomma => ?_
    · exact .pure ⟨.child ha .done, fun _ => hcompact []⟩
    · have hmute : after.isMute = true := by simp at hcomma; simp [Token.isMute, hcomma]
      refine .skip hafter (Token.ne_eof_of_mute hmute) ?_
      refine .map (ih (Nat.le_of_succ_le_succ hfuel)) fun as N has => ?_
      exact ⟨.child ha (.mute (.inl hmute) has), fun _ => hcompact _⟩

/-- A clause of a loop header is read in wider layouts as well. -/
theorem repeats_forClause (hfuel : fuel ≤ fuel') {kind : Kind} (hkind : kind.isRow = true)
    (close : String) :
    Repeats Heads Laid (forClause expr fuel kind close) (forClause expr' fuel' kind close) c := by
  refine .peek fun t _ => .fresh fun id => .ite (fun _ => .pure (.row hkind .done)) fun _ => ?_
  exact .map (repeats_forAssignments hexpr hfuel) fun as L has => .row hkind has

/-- A loop with a header is read in wider layouts as well. -/
theorem repeats_forLoop (hblock : ∀ stops c, Repeats Heads Laid (block stops) (block' stops) c)
    (hfuel : fuel ≤ fuel') :
    Repeats Apart Laid (forLoop expr block fuel) (forLoop expr' block' fuel') c := by
  refine .keyword (by decide) fun t _ => .opening fun o ho => ?_
  refine .bind (repeats_forClause hexpr hfuel rfl _) fun init I c₁ hinit => .semi fun s hs => ?_
  refine .peek fun u _ => .bind (hexpr _) fun e E c₂ he => .node fun condId => .semi fun s' hs' => ?_
  refine .bind (repeats_forClause hexpr hfuel rfl _) fun step S c₃ hstep => .closing fun d hd => ?_
  refine .bind (hblock _ _) fun b B c₄ hb => .keyword (by decide) fun w hend => .made fun id => ?_
  have hcond : Laid (.mk condId .cond u [e]) E := .row rfl (.single he.1)
  have hheader : Row Laid [init, .mk condId .cond u [e], step] (I ++ .token s :: (E ++ .token s' :: S)) :=
    .child hinit (.mute (.inl hs) (.child hcond (.mute (.inl hs') (.single hstep))))
  have hbody : Row Laid [b] (B ++ [.token w]) := .child hb (.mute (.inl hend) .done)
  simpa using Laid.loop ho hd hheader hbody

end Assignments

/-! ## Functions

A list of parameters has gaps behind its commas, with brackets or without, and inside the brackets. -/

/-- The names of parameters are read in wider layouts as well. -/
theorem repeats_paramNames (hfuel : fuel ≤ fuel') :
    Repeats Meets (fun ns L => Listed Laid ns L ∧ StartsInline L) (paramNames fuel) (paramNames fuel') c := by
  induction fuel generalizing fuel' c with
  | zero => exact .tooDeep
  | succ fuel ih =>
    obtain ⟨fuel', rfl⟩ := Nat.exists_eq_add_of_le' hfuel
    refine .name fun t hname => .node fun id => ?_
    have hstarts := startsInline_cons (Token.ne_semi_of_kept (Token.isKept_of_isName hname))
    refine .peek_meets (fun u u' h h' => by rw [if_pos h.kind_ne_comma, if_pos h'.kind_ne_comma])
      fun after hafter => .ite (fun _ => .pure ⟨.one (.leaf id t), hstarts []⟩) fun hcomma => ?_
    have hcomma : after.kind = .comma := by simpa using hcomma
    refine .skipLines hafter (by rw [hcomma]; nofun) fun lines c₁ => ?_
    refine .map (ih (Nat.le_of_succ_le_succ hfuel)) fun ps L hps => ⟨hps.2, ?_, hstarts _⟩
    obtain ⟨first, M, rfl⟩ := hps.2.fronted
    exact Listed.cons lines hcomma (.leaf id t) hps.1

/-- The parameters of a function, in brackets or not. -/
theorem repeats_params (hfuel : fuel ≤ fuel') :
    Repeats Heads Laid (params fuel) (params fuel') c := by
  refine .peek fun t ht => .fresh fun id => .ite (fun ho => ?_) fun _ => .ite (fun _ => ?_) fun _ => ?_
  · have hkind := Token.ne_eof_of_isBracket (Token.isBracket_of_isOpening ho)
    refine .skipLines ht hkind fun lines c₁ => .peek fun u hu => .ite (fun _ => ?_) fun hempty => ?_
    · refine .inside (repeats_paramNames hfuel) (fun _ _ h => h.2.fronted) fun ns L c₂ hns => ?_
      refine .shut fun lines' d c₃ hd => .pure ⟨hns.2.append _, ?_⟩
      exact .params ho hd (.full lines lines' hns.1)
    · have hclosing : u.kind = .closing := by simpa using hempty
      rw [pure_bind]
      refine .noLines hu (isNewline_of_kind (by rw [hclosing]; nofun)) fun c₂ => .closing fun d hd => ?_
      have hstarts := startsInline_closing (kind_of_isClosing hd) []
      exact .pure ⟨hstarts, hstarts, .params ho hd (.empty lines)⟩
  · exact .map (repeats_paramNames hfuel).weaken fun ns L hns => .bareParams hns.1
  · exact .pure (.bareParams .nil)

/-- A function is read in wider layouts as well. -/
theorem repeats_funcDef (hblock : ∀ stops c, Repeats Heads Laid (block stops) (block' stops) c)
    (hfuel : fuel ≤ fuel') (inBlock : Bool) :
    Repeats Apart Laid (funcDef block fuel inBlock) (funcDef block' fuel' inBlock) c := by
  refine .keyword (by decide) fun t hdef => .ite (fun _ => .fail_bind) fun _ => .name fun name _ => ?_
  refine .bind (repeats_params hfuel) fun params L c₁ hparams => ?_
  refine .bind (hblock _ c₁) fun b M c₂ hb => .keyword (by decide) fun e hend => ?_
  refine .node fun nameId => .made fun id => .row rfl (.mute (.inl hdef) (.leaf nameId name ?_))
  exact .child hparams (.child hb (.mute (.inl hend) .done))

/-! ## Statements that start with a name

Which statement it is depends on what follows the name in the same line. A wider layout adds no line
feeds there, so the parser goes the same way. -/

section Names

variable {name : Token} (hexpr : Replays expr expr')

include hexpr

/-- The arguments of a command stand right behind its name. -/
theorem repeats_command (ht : c.ahead = .ok name) (hname : name.isName = true) (hfuel : fuel ≤ fuel')
    (argued : Bool) :
    Repeats Apart (fun n L => Laid n L ∧ ∃ A, L = .token name :: A ∧ if argued then StartsExpr A else A = [])
      (command expr fuel name argued) (command expr' fuel' name argued) c := by
  have hkind := Token.ne_eof_of_kept (Token.isKept_of_isName hname)
  have hstmt : ∀ {callId calleeId argsId id : Int} {t : Token} {args : List Node} {A : List Piece},
      Row Laid args A → Laid (.mk id .callStmt name
        [.mk callId .call name [.mk calleeId .terminal name [], .mk argsId .args t args]]) (.token name :: A) :=
    fun hargs => .row rfl (.single (.command (.leaf _ name) hargs))
  refine .ite (fun hargued => ?_) fun hargued => ?_
  · refine .skip ht hkind (.bind (replays_args hexpr hfuel false) ?_)
    rintro _ A c₁ ⟨argsId, ns, rfl, hns, hA⟩
    refine .node fun calleeId => .node fun callId => .made fun id => ?_
    rw [List.append_nil]
    exact ⟨hstmt hns, A, rfl, by rwa [if_pos hargued]⟩
  · refine .skip ht hkind (.node fun calleeId => .node fun argsId => .node fun callId => .made fun id => ?_)
    exact ⟨hstmt .done, [], rfl, by rw [if_neg hargued]⟩

omit hexpr in
/-- The token behind a sign belongs to an argument, or the sign would stand behind the statement. -/
theorem third_eq {p : Parser Node} {n : Node} {c₁ : Cursor} {A L' : List Piece} {r' : List Token}
    {argued : Bool} (hc : c.Closed) (hahead : c.ahead 1 = .ok t) (hop : t.kind = .op)
    (hA : if argued then StartsExpr A else A = []) (hmirrors : Mirrors Apart p c (.token name :: A) n c₁)
    (hwider : Wider (.token name :: A) L') (hends : Apart c₁.rest r') :
    (c.on (written L' ++ r')).ahead 2 = c.ahead 2 := by
  have hrest := hmirrors.rest_eq
  rw [Cursor.ahead, hrest] at hahead
  -- without an argument the sign ends the statement, and no statement is followed by an operator
  cases argued with
  | false =>
    obtain rfl : A = [] := hA
    cases hbehind : c₁.rest with
    | nil =>
      rw [hbehind] at hahead
      rw [hc t hahead] at hop
      cases hop
    | cons u rest =>
      rw [hbehind] at hahead
      cases hahead
      exact absurd hop (hends.2 t (by rw [hbehind]; rfl))
  | true =>
    obtain ⟨u, M, rfl, -, -, hoperand⟩ : StartsExpr A := hA
    cases hahead
    -- with one, the sign is its first token, and between it and the operand there is no gap
    obtain ⟨v, N, rfl⟩ := hoperand hop
    obtain ⟨A', rfl, hwider₁⟩ := hwider.of_token
    obtain ⟨M', rfl, hwider₂⟩ := hwider₁.of_token
    obtain ⟨N', rfl, -⟩ := hwider₂.of_token
    rw [Cursor.ahead, Cursor.ahead, hrest]
    rfl

/-- A name in front of which an argument seems to stand is read the same way in wider layouts, as a call
with arguments or not. -/
theorem repeats_startsArgument (ht : c.ahead = .ok name) (hname : name.isName = true) (hfuel : fuel ≤ fuel')
    (hahead : c.ahead 1 = .ok t) :
    Repeats Apart (fun n L => Laid n L ∧ Compact c L) (startsArgument name t >>= command expr fuel name)
      (startsArgument name t >>= command expr' fuel' name) c := by
  intro hc
  refine yields_bind ((yields_startsArgument name t c).and fun _ _ hrun => hrun) ?_
  rintro argued _ ⟨rfl, hargued⟩
  refine (repeats_command hexpr ht hname hfuel argued hc).mono ?_
  rintro n c₁ ⟨_, ⟨hn, A, rfl, hA⟩, hL, hmirrors⟩
  have hungapped : Ungapped A := by
    cases argued with
    | false => exact .inl hA
    | true => exact StartsExpr.fronted hA |>.ungapped
  refine ⟨_, ⟨hn, name, A, rfl, fun _ => hungapped⟩, hL, hmirrors.look fun L' r' hwider hends => ?_⟩
  refine ⟨argued, ?_, rfl⟩
  -- only behind a sign one more token is looked at, and it is the same in a wider layout
  by_cases hsign : t.kind = .op ∧ (t.text = "-" ∨ t.text = "!")
  · have hthird := third_eq hc hahead hsign.1 hA hmirrors hwider hends
    rw [startsArgument_of_sign name hsign.1 hsign.2, StateT.run_bind, run_peek] at hargued ⊢
    rw [hthird]
    cases hafter : c.ahead 2 with
    | error e => rw [hafter] at hargued; cases hargued
    | ok after =>
      rw [hafter] at hargued
      cases hargued
      rfl
  · obtain ⟨b, hb⟩ := startsArgument_of_not_sign name hsign
    rw [hb] at hargued ⊢
    cases hargued
    rfl

/-- A statement that starts with a name is read in wider layouts as well. -/
theorem repeats_nameStmt (ht : c.ahead = .ok name) (hname : name.isName = true) (hfuel : fuel ≤ fuel') :
    Repeats Apart Laid (nameStmt expr fuel name) (nameStmt expr' fuel' name) c := by
  have hkind := Token.ne_eof_of_kept (Token.isKept_of_isName hname)
  rw [nameStmt_eq, nameStmt_eq]
  refine .peek_second fun ahead hahead => .ite (fun _ => ?_) fun _ => .ite (fun _ => ?_) fun _ => ?_
  · refine (repeats_assignment hexpr ht hkind).weaken.mono ?_
    rintro n _ ⟨hn, M, rfl, hM⟩
    exact ⟨hn, name, M, rfl, fun _ => hM.ungapped⟩
  · refine .skip ht hkind (.bind (replays_call hexpr hfuel) fun n L c₁ hn => .made fun id => ?_)
    refine ⟨.row rfl (.child hn.1 .done), name, L ++ [], rfl, fun _ => (hn.2.append []).ungapped⟩
  · exact repeats_startsArgument hexpr ht hname hfuel hahead

end Names

/-! ## Statements

By induction on the fuel, which may be more for the wider layout since it has more tokens. -/

/-- Statements of all sorts are read in wider layouts as well. -/
theorem repeats_stmt (hfuel : fuel ≤ fuel') (ctx : Context) :
    Repeats Apart Laid (stmt fuel ctx) (stmt fuel' ctx) c := by
  -- blocks are parsed with less fuel; the first token tells the statement
  induction fuel generalizing fuel' ctx c with
  | zero => exact .tooDeep
  | succ fuel ih =>
    obtain ⟨fuel', rfl⟩ := Nat.exists_eq_add_of_le' hfuel
    have hexpr := replays_expr hfuel
    have hblock : ∀ ctx stops c, Repeats Heads Laid (body (stmt fuel ctx) (fuel + 1) stops)
        (body (stmt (fuel' + fuel) ctx) (fuel' + fuel + 1) stops) c :=
      fun ctx stops c => repeats_body (fun _ => ih (Nat.le_of_succ_le_succ hfuel) ctx) hfuel stops
    refine .peek fun t ht => ?_
    cases hkind : t.kind with
    | pir =>
      refine .skip ht (by rw [hkind]; nofun) (.node fun leafId => .made fun id => ?_)
      exact .row rfl (.leaf leafId t .done)
    | global =>
      refine .skip ht (by rw [hkind]; nofun) (.checked (fun op heof => by simp [Token.isOp, heof]) fun op _ => ?_)
      refine .node fun globalId => .node fun opId => .bind (hexpr _) fun e E c₁ he => .made fun id => ?_
      exact .row rfl (.leaf globalId t (.leaf opId op (.child he.1 .done)))
    | ident =>
      have hkeyword : ∀ {word : String}, t.text = word → t.isKeyword word = true :=
        fun htext => by simp [Token.isKeyword, hkind, htext]
      dsimp only
      split
      · exact repeats_funcDef (hblock _) hfuel ctx.inBlock
      · exact repeats_ifStmt hexpr (hblock _) hfuel
      · exact repeats_unlessStmt hexpr (hblock _)
      · exact repeats_whileLoop hexpr (hblock _)
      · exact repeats_forLoop hexpr (hblock _) hfuel
      · refine .skipKeyword ht (hkeyword ‹_›) (by decide) fun hbreak => .ite (fun _ => ?_) fun _ => .fail
        exact .made fun id => .row rfl (.mute (.inl hbreak) .done)
      · refine .skipKeyword ht (hkeyword ‹_›) (by decide) fun hreturn => .peek fun u _ => ?_
        refine .ite (fun _ => .made fun id => .row rfl (.mute (.inl hreturn) .done)) fun _ => ?_
        refine .bind (hexpr _) fun e E c₁ he => .made fun id => ?_
        exact .row rfl (.mute (.inl hreturn) (.child he.1 .done))
      · refine .skipKeyword ht (hkeyword ‹_›) (by decide) fun hrequire => ?_
        refine .checked (fun name heof => by simp [heof]) fun name _ => .node fun nameId => .made fun id => ?_
        exact .row rfl (.mute (.inl hrequire) (.leaf nameId name .done))
      · exact .ite (fun hname => repeats_nameStmt hexpr ht hname hfuel) fun _ => .fail
    | _ => exact .fail

/-- A program is read in wider layouts as well. -/
theorem repeats_program (hfuel : fuel ≤ fuel') :
    Repeats Heads Laid (program fuel) (program fuel') c := by
  refine .peek fun t _ => .bind (repeats_stmtList (fun c => repeats_stmt hfuel {}) hfuel []) ?_
  exact fun list L c₁ hlist => .made fun id => .row rfl (.child hlist .done)

end Parser

/-- What follows the last token depends on that token alone. -/
theorem Lexed.ending_eq {l l' : Lexed} (hlast : l'.tokens.getLast? = l.tokens.getLast?)
    (hbad : l'.bad = l.bad) : l'.ending = l.ending := by
  rw [Lexed.ending, Lexed.ending, hbad, endToken, endToken, hlast]

/-- In the places where they have no meaning, any number of line feeds may be added to the tokens of a
program: it is parsed to the same tree, with the same ids and tokens. These places are the gaps of a layout
of the tree that has all tokens in front of the end of input. -/
theorem newlines_insignificant {l : Lexed} {tree : Node} (h : parseFrom (.start l) = .ok tree) :
    ∃ L rest, Laid tree L ∧ l.tokens = written L ++ rest ∧ (∀ t ∈ rest.head?, t.kind = .eof) ∧
      ∀ L' l', Wider L L' → l'.tokens = written L' ++ rest → l'.bad = l.bad →
        parseFrom (.start l') = .ok tree := by
  unfold parseFrom at h
  cases hrun : (Parser.program ((Cursor.start l).rest.length + 1)).run (.start l) with
  | error e => rw [hrun] at h; cases h
  | ok r =>
    rw [hrun] at h
    cases h
    have hclosed : ∀ l, (Cursor.start l).Closed := fun l t ht => kind_of_ending l ht
    obtain ⟨L, hlaid, -, hmirrors⟩ := Parser.repeats_program (Nat.le_refl _) (hclosed l) _ _ hrun
    obtain ⟨-, t, ht, heof⟩ := Parser.left_program _ (hclosed l) _ _ hrun
    have htokens : l.tokens = written L ++ r.2.rest := hmirrors.rest_eq
    refine ⟨L, r.2.rest, hlaid, htokens, fun u hu => ?_, fun L' l' hwider htokens' hbad => ?_⟩
    · rw [List.head?_eq_getElem?] at hu
      rw [Cursor.ahead, hu] at ht
      cases ht
      exact heof
    · have hending : l'.ending = l.ending := by
        refine Lexed.ending_eq ?_ hbad
        rw [htokens', htokens, List.getLast?_append, List.getLast?_append,
          hlaid.tight.getLast?_written hwider]
      have hstart : (Cursor.start l).on (written L' ++ r.2.rest) = .start l' := by
        rw [Cursor.start, Cursor.start, htokens', hending]
        rfl
      have hrun' := hmirrors.run_eq L' _ hwider rfl
      rw [hstart] at hrun'
      -- the longer program comes with more fuel
      have hfuel : (Cursor.start l).rest.length + 1 ≤ (Cursor.start l').rest.length + 1 := by
        have hlength := hwider.length_le
        show l.tokens.length + 1 ≤ l'.tokens.length + 1
        rw [htokens, htokens', List.length_append, List.length_append]
        omega
      unfold parseFrom
      rw [(Parser.repeats_program hfuel).run_eq (fun _ => rfl) (hclosed l') hrun']
      rfl

/-- A program with a gap of every sort, and line feeds in some of them. -/
def gapped : Lexed := lex (.ofString "def f(a,\n  b)\n  x = (a +\n  b[\n1])\nend\nf(1,\n  2\n)")

theorem newlines_insignificant_gapped :
    ∃ tree, parseFrom (.start gapped) = .ok tree ∧
      ∃ L rest, Laid tree L ∧ gapped.tokens = written L ++ rest ∧ (∀ t ∈ rest.head?, t.kind = .eof) ∧
        ∀ L' l', Wider L L' → l'.tokens = written L' ++ rest → l'.bad = gapped.bad →
          parseFrom (.start l') = .ok tree := by
  have hok : (parseFrom (.start gapped)).toOption.isSome = true := by decide +kernel
  cases h : parseFrom (.start gapped) with
  | error e => rw [h] at hok; cases hok
  | ok tree => exact ⟨tree, rfl, newlines_insignificant h⟩

end ScriptPir

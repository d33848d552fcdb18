import ScriptPir.Proofs.Spacing

/-!
# Two runs of a parser

`Mirrors G p c L a c'` says that a parser takes a layout and has the same result in all wider ones, whatever
stands behind them, as long as `G` tells that it looks like what stood behind the layout.

Productions are compared with `Repeats G P p p' c`: from a cursor, `p` takes layouts that satisfy `P`
together with its results, and `p'` mirrors that. There is a rule for sequencing, for choice and for each
primitive parser. A layout in such a rule does not begin with a gap, so that `G` still holds in front of it;
where one does (`Retakes`), the rules say what has to follow.
-/

namespace ScriptPir

namespace Cursor

/-! ## Cursors

The two runs stand at cursors that differ in the tokens ahead only, so they number their nodes alike. -/

/-- The cursor with other tokens to read. -/
def on (c : Cursor) (rest : List Token) : Cursor := { c with rest }

/-- The cursor behind the making of a node. -/
def numbered (c : Cursor) : Cursor := { c with nextId := c.nextId + 1 }

end Cursor

/-- A token is seen by both of two runs, or each of them sees one that ends an expression. -/
theorem Meets.exists_ahead {c : Cursor} {r' : List Token} (h : Meets c.rest r') {t : Token}
    (ht : c.ahead = .ok t) :
    ∃ t', (c.on r').ahead = .ok t' ∧ (t' = t ∨ (t.Inert ∧ t'.Inert)) := by
  unfold Cursor.ahead at ht ⊢
  rw [← List.head?_eq_getElem?] at ht ⊢
  obtain h | ⟨u, u', hu, hu', hinert, hinert'⟩ := h
  · refine ⟨t, ?_, .inl rfl⟩
    rw [show (c.on r').rest = r' from rfl, ← h]
    exact ht
  · rw [hu] at ht
    cases ht
    refine ⟨u', ?_, .inr ⟨hinert, hinert'⟩⟩
    rw [show (c.on r').rest = r' from rfl, hu']

/-- Both runs see the same token ahead. -/
theorem Heads.ahead_eq {c : Cursor} {r' : List Token} (h : Heads c.rest r') :
    (c.on r').ahead = c.ahead := by
  unfold Cursor.ahead
  rw [← List.head?_eq_getElem?, ← List.head?_eq_getElem?, h]
  rfl

/-- A parser that takes the tokens of a layout between two cursors, and has a result there, has the same
result in all wider layouts, if `G` relates what stands behind. -/
structure Mirrors {α : Type} (G : Sequel) (p : Parser α) (c : Cursor) (L : List Piece) (a : α)
    (c' : Cursor) : Prop where
  rest_eq : c.rest = written L ++ c'.rest
  ending_eq : c'.ending = c.ending
  run_eq : ∀ L' r', Wider L L' → G c'.rest r' → p.run (c.on (written L' ++ r')) = .ok (a, c'.on r')

namespace Mirrors

open ScriptPir.Parser

variable {α β : Type} {G H : Sequel} {p : Parser α} {f : α → Parser β} {c c₁ c₂ : Cursor}
  {L M : List Piece} {a : α} {b : β} {t u : Token}

/-- A list of tokens that ends properly does so behind the parser. -/
theorem closed (h : Mirrors G p c L a c₁) (hc : c.Closed) : c₁.Closed :=
  fun t ht => hc t (h.ending_eq ▸ ht)

/-- A result without a parser takes the empty layout. -/
theorem pure (a : α) (c : Cursor) : Mirrors G (pure a) c [] a c := by
  refine ⟨rfl, rfl, fun L' r' hwider _ => ?_⟩
  cases hwider
  rfl

/-- What stands behind may be less alike. -/
theorem weaken (h : Mirrors G p c L a c₁) (hG : ∀ r', H c₁.rest r' → G c₁.rest r') :
    Mirrors H p c L a c₁ :=
  ⟨h.rest_eq, h.ending_eq, fun L' r' hwider hr' => h.run_eq L' r' hwider (hG r' hr')⟩

/-- The parser goes on behind the layout, and what it takes then is what stands there. -/
theorem bind (hp : Mirrors G p c L a c₁) (hf : Mirrors H (f a) c₁ M b c₂)
    (hG : ∀ M' r', Wider M M' → H c₂.rest r' → G (written M ++ c₂.rest) (written M' ++ r')) :
    Mirrors H (p >>= f) c (L ++ M) b c₂ := by
  refine ⟨?_, hf.ending_eq.trans hp.ending_eq, fun N r' hwider hr' => ?_⟩
  · rw [hp.rest_eq, hf.rest_eq, written_append, List.append_assoc]
  · obtain ⟨L', M', rfl, hL, hM⟩ := hwider.of_append
    have hbehind : G c₁.rest (written M' ++ r') := by
      rw [hf.rest_eq]
      exact hG M' r' hM hr'
    rw [written_append, List.append_assoc, StateT.run_bind, hp.run_eq L' _ hL hbehind]
    exact hf.run_eq M' r' hM hr'

/-- A parser that does not look ahead has the same result whatever follows. -/
theorem andThen (hp : Mirrors Free p c L a c₁) (hf : Mirrors H (f a) c₁ M b c₂) :
    Mirrors H (p >>= f) c (L ++ M) b c₂ :=
  hp.bind hf fun _ _ _ _ => trivial

/-- Line feeds are left out in front of a token that is none. -/
theorem clear (hp : Mirrors NoLine p c L a c₁) (hM : StartsInline M) (hf : Mirrors H (f a) c₁ M b c₂) :
    Mirrors H (p >>= f) c (L ++ M) b c₂ := by
  refine hp.bind hf fun M' r' hwider _ => ?_
  obtain ⟨t, M, rfl, ht⟩ := hM
  obtain ⟨M', rfl, -⟩ := hwider.of_token
  intro u hu
  cases hu
  exact ht

/-- What is found out by looking ahead only matters for what follows. -/
theorem look (hf : Mirrors H (f a) c L b c₁)
    (hlook : ∀ L' r', Wider L L' → H c₁.rest r' → ∃ a', p.run (c.on (written L' ++ r')) =
      .ok (a', c.on (written L' ++ r')) ∧ f a' = f a) : Mirrors H (p >>= f) c L b c₁ := by
  refine ⟨hf.rest_eq, hf.ending_eq, fun L' r' hwider hr' => ?_⟩
  obtain ⟨a', hrun, heq⟩ := hlook L' r' hwider hr'
  rw [StateT.run_bind, hrun]
  show (f a').run _ = _
  rw [heq]
  exact hf.run_eq L' r' hwider hr'

/-- The first token of a layout is the one ahead. -/
theorem ahead_eq (h : Mirrors G p c (.token u :: L) a c₁) : c.ahead = .ok u := by
  rw [Cursor.ahead, h.rest_eq]
  rfl

/-- What is seen behind the first token of a layout, if there is no gap. -/
theorem exists_second [Extends H Meets] {L' : List Piece} {r' : List Token}
    (h : Mirrors H p c (.token u :: L) a c₁) (hL : Ungapped L) (hwider : Wider L L') (hr' : H c₁.rest r')
    (ht : c.ahead 1 = .ok t) :
    ∃ t', (c.on (written (.token u :: L') ++ r')).ahead 1 = .ok t' ∧
      (t' = t ∨ (t.Inert ∧ t'.Inert)) := by
  have hmeets : Meets c.advanced.rest (written L' ++ r') := by
    show Meets c.rest.tail _
    rw [h.rest_eq]
    exact Extends.extend hL hwider hr'
  rw [← Cursor.ahead_advanced] at ht ⊢
  exact hmeets.exists_ahead ht

/-- The token behind the first one is the same, if there is no gap between them. -/
theorem second_eq [Extends H Heads] {L' : List Piece} {r' : List Token}
    (h : Mirrors H p c (.token u :: L) a c₁) (hL : Ungapped L) (hwider : Wider L L')
    (hr' : H c₁.rest r') : (c.on (written (.token u :: L') ++ r')).ahead 1 = c.ahead 1 := by
  have hheads : Heads c.advanced.rest (written L' ++ r') := by
    show Heads c.rest.tail _
    rw [h.rest_eq]
    exact Extends.extend hL hwider hr'
  rw [← Cursor.ahead_advanced, ← Cursor.ahead_advanced]
  exact hheads.ahead_eq

end Mirrors

namespace Parser

variable {α β : Type} {G H : Sequel} {P R : α → List Piece → Prop} {Q : β → List Piece → Prop}
  {p p' : Parser α} {q q' : Parser β} {f f' : α → Parser β} {c : Cursor} {t : Token}

/-- A parser that takes the token ahead, and looks at no other, takes it in every layout. -/
theorem mirrors_advanced {a : α} (hc : c.Closed) (ht : c.ahead = .ok t) (hkind : t.kind ≠ .eof)
    (hp : ∀ c : Cursor, c.ahead = .ok t → p.run c = .ok (a, c.advanced)) :
    Mirrors Free p c [.token t] a c.advanced := by
  have htook := took_advanced hc ht hkind
  refine ⟨htook.rest_eq, rfl, fun L' r' hwider _ => ?_⟩
  obtain ⟨M', rfl, hM⟩ := hwider.of_token
  cases hM
  exact hp (c.on (t :: r')) rfl

/-- A number is the same in every layout. -/
theorem mirrors_fresh (c : Cursor) : Mirrors Free fresh c [] (c.nextId : Int) c.numbered := by
  refine ⟨rfl, rfl, fun L' r' hwider _ => ?_⟩
  cases hwider
  rfl

/-- A layout that has only line feeds, and only gaps and line feeds can be widened. -/
def Blank (L : List Piece) : Prop := ∀ t ∈ written L, t.isNewline = true

/-- A layout of line feeds is one of line feeds when it is widened. -/
theorem Blank.wider {L L' : List Piece} (h : Blank L) (hwider : Wider L L') : Blank L' := by
  induction hwider with
  | nil => exact h
  | cons hp _ ih =>
    have hrest := ih fun t ht => h t (List.mem_append_right _ ht)
    -- a piece stays as it is, or it is a gap with line feeds in it
    cases hp with
    | token u =>
      intro t ht
      obtain rfl | ht := List.mem_cons.mp ht
      · exact h t List.mem_cons_self
      · exact hrest t ht
    | gap =>
      intro t ht
      obtain ht | ht := List.mem_append.mp ht
      · obtain ⟨line, -, rfl⟩ := List.mem_map.mp ht
        exact line.property
      · exact hrest t ht

/-- Line feeds are left out, however they are laid out. -/
theorem mirrors_skipNewlines {L : List Piece} (hL : written L = c.rest.takeWhile Token.isNewline) :
    skipNewlines.Yields c fun _ c' => Mirrors NoLine skipNewlines c L () c' := by
  have hblank : Blank L := by
    intro t ht
    rw [hL] at ht
    exact List.all_eq_true.mp (List.all_takeWhile ..) t ht
  intro a c' hrun
  cases hrun
  refine ⟨?_, rfl, fun L' r' hwider hline => ?_⟩
  · rw [hL]
    exact List.takeWhile_append_dropWhile.symm
  -- all line feeds of the wider layout are skipped too, and the token behind them stops that
  have hdrop : (written L' ++ r').dropWhile Token.isNewline = r' := by
    rw [List.dropWhile_append_of_pos (hblank.wider hwider)]
    cases r' with
    | nil => rfl
    | cons t r' => rw [List.dropWhile_cons_of_neg (by simp [hline t rfl])]
  show Except.ok ((), { c.on (written L' ++ r') with
    rest := (written L' ++ r').dropWhile Token.isNewline }) = _
  rw [hdrop]
  rfl

/-! ## Parsers that take layouts

The layout is not given in advance: it is found while the parser runs. Both predicates say that there
is one for every result, and what it looks like. -/

/-- From a cursor, a parser takes layouts that satisfy `P` together with its results, and a second parser
has the same results in all wider ones. -/
def Retakes (G : Sequel) (P : α → List Piece → Prop) (p p' : Parser α) (c : Cursor) : Prop :=
  c.Closed → p.Yields c fun a c' => ∃ L, P a L ∧ Mirrors G p' c L a c'

/-- The layouts do not begin with a gap. -/
def Repeats (G : Sequel) (P : α → List Piece → Prop) (p p' : Parser α) (c : Cursor) : Prop :=
  c.Closed → p.Yields c fun a c' => ∃ L, P a L ∧ Ungapped L ∧ Mirrors G p' c L a c'

/-- A parser whose layouts do not begin with a gap takes layouts. -/
theorem Repeats.retakes (h : Repeats G P p p' c) : Retakes G P p p' c := by
  intro hc
  refine (h hc).mono ?_
  rintro a c' ⟨L, hP, -, hmirrors⟩
  exact ⟨L, hP, hmirrors⟩

/-- The second parser has the same result on the same tokens, too. -/
theorem Repeats.run_eq (h : Repeats G P p p' c) (hG : ∀ r, G r r) (hc : c.Closed) {a : α} {c' : Cursor}
    (hrun : p.run c = .ok (a, c')) : p'.run c = .ok (a, c') := by
  obtain ⟨L, -, -, hmirrors⟩ := h hc a c' hrun
  have hrun' := hmirrors.run_eq L c'.rest (Wider.refl L) (hG _)
  rwa [← hmirrors.rest_eq] at hrun'

namespace Retakes

/-- A weaker property of layouts holds as well. -/
theorem mono (h : Retakes G P p p' c) (hle : ∀ a L, P a L → R a L) : Retakes G R p p' c := by
  intro hc
  refine (h hc).mono ?_
  rintro a c' ⟨L, hP, hmirrors⟩
  exact ⟨L, hle a L hP, hmirrors⟩

/-- A choice takes the layouts of the branch that is chosen, in both runs alike. -/
theorem ite {b : Prop} [Decidable b] {r r' : Parser α} (hp : b → Retakes G P p p' c)
    (hr : ¬b → Retakes G P r r' c) :
    Retakes G P (if b then p else r) (if b then p' else r') c := by
  by_cases hb : b
  · rw [if_pos hb, if_pos hb]
    exact hp hb
  · rw [if_neg hb, if_neg hb]
    exact hr hb

end Retakes

/-! ## Sequencing and choice

The rules of the monad. In a sequence, the first parser has to bear what the second one may begin
with, which is what the class `Extends` finds out. -/

namespace Repeats

/-- A weaker property of layouts holds as well. -/
theorem mono (h : Repeats G P p p' c) (hle : ∀ a L, P a L → R a L) : Repeats G R p p' c := by
  intro hc
  refine (h hc).mono ?_
  rintro a c' ⟨L, hP, hmirrors⟩
  exact ⟨L, hle a L hP, hmirrors⟩

/-- What stands behind may be known better than needed. -/
theorem weaken [Extends H G] (h : Repeats G P p p' c) : Repeats H P p p' c := by
  intro hc
  refine (h hc).mono ?_
  rintro a c' ⟨L, hP, hL, hmirrors⟩
  exact ⟨L, hP, hL, hmirrors.weaken fun r' => Extends.extend ungapped_nil .nil⟩

/-- The layout of a sequence is that of the first parser followed by that of the second. -/
theorem bind [Extends H G] (hp : Repeats G P p p' c)
    (hf : ∀ a L c₁, P a L → Repeats H (fun b M => Q b (L ++ M)) (f a) (f' a) c₁) :
    Repeats H Q (p >>= f) (p' >>= f') c := by
  intro hc
  refine yields_bind (hp hc) ?_
  rintro a c₁ ⟨L, hP, hL, hmirrors⟩
  refine (hf a L c₁ hP (hmirrors.closed hc)).mono ?_
  rintro b c₂ ⟨M, hQ, hM, hrest⟩
  exact ⟨L ++ M, hQ, hL.append hM, hmirrors.bind hrest fun _ _ => Extends.extend hM⟩

theorem pure {a : α} (h : P a []) : Repeats G P (pure a) (pure a) c :=
  fun _ => yields_pure ⟨[], h, ungapped_nil, .pure a c⟩

/-- The result is made of that of a parser. -/
theorem map {g : α → β} (hp : Repeats G P p p' c) (hle : ∀ a L, P a L → Q (g a) L) :
    Repeats G Q (do return g (← p)) (do return g (← p')) c := by
  intro hc
  refine yields_bind (hp hc) ?_
  rintro a c₁ ⟨L, hP, hL, hmirrors⟩
  refine yields_pure ⟨L, hle a L hP, hL, hmirrors.rest_eq, hmirrors.ending_eq, fun L' r' hwider hG => ?_⟩
  rw [StateT.run_bind, hmirrors.run_eq L' r' hwider hG]
  rfl

theorem fail {fault : SyntaxFault} : Repeats G P (fail t fault) p' c :=
  fun _ => yields_fail

theorem fail_bind {fault : SyntaxFault} : Repeats H Q (Parser.fail t fault >>= f) q' c :=
  fun _ => yields_fail_bind

/-- Without fuel there is no result. -/
theorem tooDeep : Repeats G P (do Parser.fail (← Parser.peek) .tooDeep) p' c :=
  fun _ => yields_bind (yields_peek 0 c) fun _ _ _ => yields_fail

/-- A choice takes the layouts of the branch that is chosen, in both runs alike. -/
theorem ite {b : Prop} [Decidable b] {r r' : Parser α} (hp : b → Repeats G P p p' c)
    (hr : ¬b → Repeats G P r r' c) :
    Repeats G P (if b then p else r) (if b then p' else r') c := by
  by_cases hb : b
  · rw [if_pos hb, if_pos hb]
    exact hp hb
  · rw [if_neg hb, if_neg hb]
    exact hr hb

end Repeats

/-! ## Looking ahead

Where a parser looks at a token, both runs have to decide alike. A token of the layout is the same in
both; one behind the layout is the same if `G` says so, or is one of those that end an expression. -/

namespace Repeats

variable {f f' : Token → Parser β}

/-- A token that is there is seen in both runs. -/
theorem peek_fronted (hQ : ∀ b L, Q b L → Fronted L)
    (hf : ∀ t, c.ahead = .ok t → Repeats H Q (f t) (f' t) c) :
    Repeats H Q (peek >>= f) (peek >>= f') c := by
  intro hc
  refine yields_bind (yields_peek 0 c) ?_
  rintro t _ ⟨rfl, ht⟩
  refine (hf t ht hc).mono ?_
  rintro b c₁ ⟨L, hL, hungapped, hmirrors⟩
  obtain ⟨u, M, rfl⟩ := hQ b L hL
  refine ⟨_, hL, hungapped, hmirrors.look fun L' r' hwider _ => ⟨t, ?_, rfl⟩⟩
  obtain ⟨M', rfl, -⟩ := hwider.of_token
  obtain rfl : u = t := Except.ok.inj (hmirrors.ahead_eq.symm.trans ht)
  rw [run_peek]
  rfl

/-- A token is looked at that may stand behind the layout, where both runs see the same. -/
theorem peek [Extends H Heads] (hf : ∀ t, c.ahead = .ok t → Repeats H Q (f t) (f' t) c) :
    Repeats H Q (peek >>= f) (peek >>= f') c := by
  intro hc
  refine yields_bind (yields_peek 0 c) ?_
  rintro t _ ⟨rfl, ht⟩
  refine (hf t ht hc).mono ?_
  rintro b c₁ ⟨L, hQ, hL, hmirrors⟩
  refine ⟨L, hQ, hL, hmirrors.look fun L' r' hwider h => ⟨t, ?_, rfl⟩⟩
  have hheads : Heads c.rest (written L' ++ r') := by
    rw [hmirrors.rest_eq]
    exact Extends.extend hL hwider h
  rw [run_peek, hheads.ahead_eq, ht]
  rfl

/-- Which token ends an expression makes no difference. -/
theorem peek_meets [Extends H Meets] (hinert : ∀ t t', t.Inert → t'.Inert → f' t = f' t')
    (hf : ∀ t, c.ahead = .ok t → Repeats H Q (f t) (f' t) c) :
    Repeats H Q (Parser.peek >>= f) (Parser.peek >>= f') c := by
  intro hc
  refine yields_bind (yields_peek 0 c) ?_
  rintro t _ ⟨rfl, ht⟩
  refine (hf t ht hc).mono ?_
  rintro b c₁ ⟨L, hQ, hL, hmirrors⟩
  refine ⟨L, hQ, hL, hmirrors.look fun L' r' hwider h => ?_⟩
  have hmeets : Meets c.rest (written L' ++ r') := by
    rw [hmirrors.rest_eq]
    exact Extends.extend hL hwider h
  obtain ⟨t', ht', heq⟩ := hmeets.exists_ahead ht
  refine ⟨t', by rw [run_peek, ht']; rfl, ?_⟩
  obtain rfl | ⟨ht, ht'⟩ := heq
  · rfl
  · exact hinert t' t ht' ht

end Repeats

/-- From a cursor, there is no gap behind the first token of a layout. -/
def Compact (c : Cursor) (L : List Piece) : Prop := ∃ t M, L = .token t :: M ∧ (c.ahead = .ok t → Ungapped M)

/-- The second token is looked at. -/
theorem Repeats.peek_second [Extends H Heads] {f f' : Token → Parser β}
    (hf : ∀ t, c.ahead 1 = .ok t → Repeats H (fun b L => Q b L ∧ Compact c L) (f t) (f' t) c) :
    Repeats H Q (Parser.peek 1 >>= f) (Parser.peek 1 >>= f') c := by
  intro hc
  refine yields_bind (yields_peek 1 c) ?_
  rintro t _ ⟨rfl, ht⟩
  refine (hf t ht hc).mono ?_
  rintro b c₁ ⟨_, ⟨hQ, u, M, rfl, hM⟩, hL, hmirrors⟩
  refine ⟨_, hQ, hL, hmirrors.look fun L' r' hwider hr' => ⟨t, ?_, rfl⟩⟩
  obtain ⟨M', rfl, hM'⟩ := hwider.of_token
  rw [run_peek, hmirrors.second_eq (hM hmirrors.ahead_eq) hM' hr', ht]
  rfl

/-- The second token is looked at if there is a reason to. -/
theorem Repeats.second [Extends H Heads] {cond : Prop} [Decidable cond] {g : Token → Bool}
    {f f' : Bool → Parser β}
    (hf : ∀ b, (b = true → cond) → Repeats H (fun a L => Q a L ∧ (cond → Compact c L)) (f b) (f' b) c) :
    Repeats H Q (if cond then g <$> Parser.peek 1 >>= f else Pure.pure false >>= f)
      (if cond then g <$> Parser.peek 1 >>= f' else Pure.pure false >>= f') c := by
  refine .ite (fun h => ?_) fun h => ?_
  · rw [map_eq_pure_bind, bind_assoc, bind_assoc]
    refine .peek_second fun t _ => ?_
    rw [pure_bind, pure_bind]
    exact (hf _ fun _ => h).mono fun a L hL => ⟨hL.1, hL.2 h⟩
  · rw [pure_bind, pure_bind]
    exact (hf false nofun).mono fun a L hL => hL.1

/-! ## Nodes

Both runs make as many nodes, so these have the same ids. -/

namespace Repeats

/-- Both runs take the same number. -/
theorem fresh {f f' : Int → Parser β} (hf : ∀ id, Repeats H Q (f id) (f' id) c.numbered) :
    Repeats H Q (Parser.fresh >>= f) (Parser.fresh >>= f') c := by
  intro hc b c₂ hrun
  obtain ⟨L, hQ, hL, hmirrors⟩ := hf _ hc b c₂ hrun
  exact ⟨L, hQ, hL, (mirrors_fresh c).andThen hmirrors⟩

theorem node {f f' : Node → Parser β} {kind : Kind} {children : List Node}
    (hf : ∀ id, Repeats H Q (f (.mk id kind t children)) (f' (.mk id kind t children)) c.numbered) :
    Repeats H Q (node kind t children >>= f) (node kind t children >>= f') c := by
  rw [Parser.node, bind_assoc, bind_assoc]
  exact .fresh fun id => by rw [pure_bind, pure_bind]; exact hf id

/-- The node is the result. -/
theorem made {P : Node → List Piece → Prop} {kind : Kind} {children : List Node}
    (h : ∀ id, P (.mk id kind t children) []) :
    Repeats G P (Parser.node kind t children) (Parser.node kind t children) c :=
  .fresh fun id => .pure (h id)

end Repeats

/-! ## Tokens

A parser that takes one token is told by `Accepts`; the rules for it are instances of one rule, for a
token that is followed by a gap (`token`) and for one that is not (`sure`). -/

/-- A parser that takes one token and does not look at anything else. -/
def Accepts (p : Parser Token) (P : Token → Prop) : Prop :=
  ∀ c, p.Yields c fun t c' => c' = c.advanced ∧ c.ahead = .ok t ∧ P t ∧
    ∀ c, c.ahead = .ok t → p.run c = .ok (t, c.advanced)

theorem accepts_next : Accepts next fun _ => True :=
  fun c => (yields_next c).mono fun _ _ h => ⟨h.1, h.2, trivial, fun _ => run_next⟩

/-- A token is taken and passed on if it is a good one. -/
theorem accepts_of_eq {good : Token → Prop} [∀ t, Decidable (good t)] {fault : Token → SyntaxFault}
    {p : Parser Token}
    (hp : p = do
      let t ← next
      if good t then return t else fail t (fault t)) : Accepts p good := by
  subst hp
  intro c
  refine yields_bind (yields_next c) ?_
  rintro t _ ⟨rfl, ht⟩
  refine yields_ite (fun hgood => yields_pure ⟨rfl, ht, hgood, fun c ht => ?_⟩) fun _ => yields_fail
  rw [StateT.run_bind, run_next ht]
  show (if good t then Pure.pure t else _ : Parser Token).run _ = _
  rw [if_pos hgood]
  rfl

/-- A token that is asked for has the kind and the text. -/
theorem accepts_expect (kind : TokenKind) (text : String) :
    Accepts (expect kind text) fun t => t.kind = kind ∧ t.text = text :=
  accepts_of_eq rfl

theorem accepts_keyword (word : String) : Accepts (expectKeyword word) (·.isKeyword word = true) :=
  accepts_of_eq rfl

theorem accepts_name (what : String) : Accepts (expectName what) (·.isName = true) :=
  accepts_of_eq rfl

/-- An opening bracket that is asked for is the one. -/
theorem accepts_opening (text : String) : Accepts (expect .opening text) (·.isOpening text = true) :=
  fun c => (accepts_expect .opening text c).mono fun t _ h =>
    ⟨h.1, h.2.1, by simp [Token.isOpening, h.2.2.1], h.2.2.2⟩

/-- A closing bracket that is asked for is the one. -/
theorem accepts_closing (text : String) : Accepts (expect .closing text) (·.isClosing text = true) :=
  fun c => (accepts_expect .closing text c).mono fun t _ h =>
    ⟨h.1, h.2.1, by simp [Token.isClosing, h.2.2.1], h.2.2.2⟩

namespace Repeats

variable {g g' : Unit → Parser β} {f f' : Token → Parser β}

/-- The end of input is not taken from a layout. -/
theorem token {P : Token → Prop} {p : Parser Token} (hp : Accepts p P)
    (hf : ∀ t, c.ahead = .ok t → P t →
      Retakes H (fun b M => t.kind ≠ .eof ∧ Q b (.token t :: M)) (f t) (f' t) c.advanced) :
    Repeats H Q (p >>= f) (p >>= f') c := by
  intro hc
  refine yields_bind (hp c) ?_
  rintro t _ ⟨rfl, ht, hP, hrun⟩
  refine (hf t ht hP hc).mono ?_
  rintro b c₂ ⟨L, ⟨hkind, hQ⟩, hmirrors⟩
  exact ⟨.token t :: L, hQ, ungapped_cons t L, (mirrors_advanced hc ht hkind hrun).andThen hmirrors⟩

/-- The next token is taken, and it is not the end of input. -/
theorem next
    (hf : ∀ t, c.ahead = .ok t →
      Retakes H (fun b M => t.kind ≠ .eof ∧ Q b (.token t :: M)) (f t) (f' t) c.advanced) :
    Repeats H Q (Parser.next >>= f) (Parser.next >>= f') c :=
  .token accepts_next fun t ht _ => hf t ht

/-- A token is taken whose kind says that it is not the end of input. -/
theorem sure {P : Token → Prop} {p : Parser Token} (hp : Accepts p P) (hP : ∀ t, P t → t.kind ≠ .eof)
    (hf : ∀ t, P t → Repeats H (fun b M => Q b (.token t :: M)) (f t) (f' t) c.advanced) :
    Repeats H Q (p >>= f) (p >>= f') c :=
  .token hp fun t _ ht => ((hf t ht).mono fun _ _ hQ => ⟨hP t ht, hQ⟩).retakes

/-- The next token is taken if it is not a bad one. -/
theorem checked {bad : Token → Prop} [∀ t, Decidable (bad t)] {fault : Token → SyntaxFault}
    (hbad : ∀ t, t.kind = .eof → bad t)
    (hf : ∀ t, ¬bad t → Repeats H (fun b M => Q b (.token t :: M)) (f t) (f' t) c.advanced) :
    Repeats H Q
      (do
        let t ← Parser.next
        if bad t then Parser.fail t (fault t)
        f t)
      (do
        let t ← Parser.next
        if bad t then Parser.fail t (fault t)
        f' t) c := by
  refine .next fun t _ => Repeats.retakes (.ite (fun _ => .fail_bind) fun hgood => ?_)
  exact (hf t hgood).mono fun b M hQ => ⟨fun heof => hgood (hbad t heof), hQ⟩

/-- A word that is asked for is taken, and is mute. -/
theorem keyword {word : String} (hword : word ∈ Token.keywords ∧ word ∉ Token.operandWords)
    (hf : ∀ t, t.isMute = true → Repeats H (fun b M => Q b (.token t :: M)) (f t) (f' t) c.advanced) :
    Repeats H Q (expectKeyword word >>= f) (expectKeyword word >>= f') c := by
  have hmute : ∀ {t : Token}, t.isKeyword word = true → t.isMute = true :=
    fun h => Token.isMute_of_isKeyword h hword
  exact .sure (accepts_keyword word) (fun t h => Token.ne_eof_of_mute (hmute h)) fun t h => hf t (hmute h)

/-- A semicolon that is asked for is taken, and is mute. -/
theorem semi
    (hf : ∀ t, t.isMute = true → Repeats H (fun b M => Q b (.token t :: M)) (f t) (f' t) c.advanced) :
    Repeats H Q (expect .semi ";" >>= f) (expect .semi ";" >>= f') c :=
  .sure (accepts_expect .semi ";") (fun t h => by rw [h.1]; nofun) fun t h =>
    hf t (by simp [Token.isMute, h.1])

theorem name {what : String}
    (hf : ∀ t, t.isName = true → Repeats H (fun b M => Q b (.token t :: M)) (f t) (f' t) c.advanced) :
    Repeats H Q (expectName what >>= f) (expectName what >>= f') c :=
  .sure (accepts_name what) (fun _ h => Token.ne_eof_of_kept (Token.isKept_of_isName h)) hf

theorem opening {text : String}
    (hf : ∀ t, t.isOpening text = true →
      Repeats H (fun b M => Q b (.token t :: M)) (f t) (f' t) c.advanced) :
    Repeats H Q (expect .opening text >>= f) (expect .opening text >>= f') c :=
  .sure (accepts_opening text) (fun _ h => Token.ne_eof_of_isBracket (Token.isBracket_of_isOpening h)) hf

theorem closing {text : String}
    (hf : ∀ t, t.isClosing text = true →
      Repeats H (fun b M => Q b (.token t :: M)) (f t) (f' t) c.advanced) :
    Repeats H Q (expect .closing text >>= f) (expect .closing text >>= f') c :=
  .sure (accepts_closing text) (fun _ h => Token.ne_eof_of_isBracket (Token.isBracket_of_isClosing h)) hf

/-- A token that was seen ahead is left out. -/
theorem skipped (ht : c.ahead = .ok t) (hkind : t.kind ≠ .eof)
    (hf : Retakes H (fun b M => Q b (.token t :: M)) (g ()) (g' ()) c.advanced) :
    Repeats H Q (skip >>= g) (skip >>= g') c := by
  rw [Parser.skip, bind_assoc, bind_assoc]
  refine .next fun u hu hc => ?_
  obtain rfl : t = u := Except.ok.inj (ht.symm.trans hu)
  rw [pure_bind, pure_bind]
  refine (hf hc).mono ?_
  rintro b c' ⟨L, hQ, hmirrors⟩
  exact ⟨L, ⟨hkind, hQ⟩, hmirrors⟩

theorem skip (ht : c.ahead = .ok t) (hkind : t.kind ≠ .eof)
    (hf : Repeats H (fun b M => Q b (.token t :: M)) (g ()) (g' ()) c.advanced) :
    Repeats H Q (Parser.skip >>= g) (Parser.skip >>= g') c :=
  .skipped ht hkind hf.retakes

/-- A keyword that was seen ahead is left out. -/
theorem skipKeyword {word : String} (ht : c.ahead = .ok t) (hkeyword : t.isKeyword word = true)
    (hword : word ∈ Token.keywords ∧ word ∉ Token.operandWords)
    (hf : t.isMute = true → Repeats H (fun b M => Q b (.token t :: M)) (g ()) (g' ()) c.advanced) :
    Repeats H Q (Parser.skip >>= g) (Parser.skip >>= g') c :=
  have hmute := Token.isMute_of_isKeyword hkeyword hword
  .skip ht (Token.ne_eof_of_mute hmute) (hf hmute)

end Repeats

/-! ## Gaps

The parser leaves line feeds out in four kinds of places: behind an opening bracket, in front of a
closing one, between both, and where there must be one. The first three are gaps of the layout, in
which there may be any number of line feeds; in the last they are tokens. -/

/-- The line feeds at the front of a token list. -/
def lineFeeds (r : List Token) : List LineFeed :=
  (r.takeWhile Token.isNewline).attachWith _ fun t ht => List.all_eq_true.mp (List.all_takeWhile ..) t ht

/-- A layout begins with a gap and a closing bracket. -/
def Shuts (L : List Piece) : Prop :=
  ∃ lines d M, L = .gap lines :: .token d :: M ∧ d.kind = .closing

section Gaps

variable {g g' : Unit → Parser β} {f f' : Token → Parser β}

/-- Line feeds are left out in a gap, and what follows is none. -/
theorem Retakes.gap
    (hg : ∀ lines c₁, Repeats H (fun b M => StartsInline M ∧ Q b (.gap lines :: M)) (g ()) (g' ()) c₁) :
    Retakes H Q (skipNewlines >>= g) (skipNewlines >>= g') c := by
  intro hc
  have hlines : written [.gap (lineFeeds c.rest)] = c.rest.takeWhile Token.isNewline := by
    simp [Piece.tokens, lineFeeds]
  refine yields_bind (mirrors_skipNewlines hlines) ?_
  intro _ c₁ hgap
  refine (hg (lineFeeds c.rest) c₁ (hgap.closed hc)).mono ?_
  rintro b c₂ ⟨M, ⟨hM, hQ⟩, -, hmirrors⟩
  exact ⟨_, hQ, hgap.clear hM hmirrors⟩

theorem kind_of_isClosing {d : Token} {text : String} (h : d.isClosing text = true) :
    d.kind = .closing := by
  simp only [Token.isClosing, Bool.and_eq_true, decide_eq_true_eq] at h
  exact h.1

/-- A layout that begins with a closing bracket does not begin with a line feed. -/
theorem startsInline_closing {d : Token} (hd : d.kind = .closing) (L : List Piece) : StartsInline (.token d :: L) :=
  startsInline_cons (by rw [hd]; nofun) L

/-- In the gap before a closing bracket. -/
theorem Retakes.shut {text : String}
    (hf : ∀ lines d c₁, d.isClosing text = true →
      Repeats H (fun b M => Q b (.gap lines :: .token d :: M)) (f d) (f' d) c₁) :
    Retakes H (fun b M => Shuts M ∧ Q b M) (do skipNewlines; let d ← expect .closing text; f d)
      (do skipNewlines; let d ← expect .closing text; f' d) c := by
  refine .gap fun lines c₁ => .closing fun d hd => (hf lines d _ hd).mono fun b M hQ => ?_
  have hkind := kind_of_isClosing hd
  exact ⟨startsInline_closing hkind M, ⟨lines, d, M, rfl, hkind⟩, hQ⟩

namespace Repeats

/-- An expression ends in front of a closing bracket, with and without line feeds. -/
theorem inside {f f' : α → Parser β} (hp : Repeats Meets P p p' c) (hP : ∀ a L, P a L → Fronted L)
    (hf : ∀ a L c₁, P a L → Retakes H (fun b M => Shuts M ∧ Q b (L ++ M)) (f a) (f' a) c₁) :
    Repeats H Q (p >>= f) (p' >>= f') c := by
  intro hc
  refine yields_bind (hp hc) ?_
  rintro a c₁ ⟨L, ha, hL, hmirrors⟩
  refine (hf a L c₁ ha (hmirrors.closed hc)).mono ?_
  rintro b c₂ ⟨_, ⟨⟨lines, d, M, rfl, hd⟩, hQ⟩, hrest⟩
  exact ⟨_, hQ, ((hP a L ha).append _).ungapped, hmirrors.bind hrest fun _ _ hwider _ =>
    meets_of_closing hd hwider⟩

/-- Behind a token that was seen ahead there is a gap. -/
theorem skipLines (ht : c.ahead = .ok t) (hkind : t.kind ≠ .eof)
    (hg : ∀ lines c₁,
      Repeats H (fun b M => StartsInline M ∧ Q b (.token t :: .gap lines :: M)) (g ()) (g' ()) c₁) :
    Repeats H Q (do Parser.skip; skipNewlines >>= g) (do Parser.skip; skipNewlines >>= g') c :=
  .skipped ht hkind (.gap hg)

/-- Behind an opening bracket there is a gap. -/
theorem openingLines {text : String} {g g' : Token → Unit → Parser β}
    (hg : ∀ o lines c₁, o.isOpening text = true →
      Repeats H (fun b M => StartsInline M ∧ Q b (.token o :: .gap lines :: M)) (g o ()) (g' o ()) c₁) :
    Repeats H Q (do let o ← expect .opening text; skipNewlines >>= g o)
      (do let o ← expect .opening text; skipNewlines >>= g' o) c := by
  refine .token (accepts_opening text) fun o _ ho => .gap fun lines c₁ => (hg o lines c₁ ho).mono ?_
  have hkind := Token.ne_eof_of_isBracket (Token.isBracket_of_isOpening ho)
  exact fun b M hQ => ⟨hQ.1, hkind, hQ.2⟩

/-- There may be no line feeds at all. -/
theorem noLines (ht : c.ahead = .ok t) (hline : t.isNewline = false)
    (hg : ∀ c₁, Repeats H (fun b M => StartsInline M ∧ Q b M) (g ()) (g' ()) c₁) :
    Repeats H Q (skipNewlines >>= g) (skipNewlines >>= g') c := by
  intro hc
  -- the token ahead is no line feed, so none are left out
  have hnone : written [] = c.rest.takeWhile Token.isNewline := by
    unfold Cursor.ahead at ht
    cases hrest : c.rest with
    | nil => rfl
    | cons u rest =>
      rw [hrest] at ht
      cases ht
      rw [List.takeWhile_cons_of_neg (by simp [hline])]
      rfl
  refine yields_bind (mirrors_skipNewlines hnone) ?_
  intro _ c₁ hlines
  refine (hg c₁ (hlines.closed hc)).mono ?_
  rintro b c₂ ⟨M, ⟨hM, hQ⟩, hungapped, hmirrors⟩
  exact ⟨M, hQ, hungapped, hlines.clear hM hmirrors⟩

/-- Line feeds where there is no gap are tokens. -/
theorem lines
    (hg : ∀ (ts : List Token) c₁, (∀ t ∈ ts, t.isNewline = true) →
      Repeats H (fun b M => StartsInline M ∧ Q b (ts.map .token ++ M)) (g ()) (g' ()) c₁) :
    Repeats H Q (skipNewlines >>= g) (skipNewlines >>= g') c := by
  intro hc
  have hwritten : ∀ ts : List Token, written (ts.map .token) = ts := by
    intro ts
    induction ts with
    | nil => rfl
    | cons t ts ih => rw [List.map_cons, written_cons, ih]; rfl
  refine yields_bind (mirrors_skipNewlines (hwritten _)) ?_
  intro _ c₁ hlines
  have hfeeds : ∀ t ∈ c.rest.takeWhile Token.isNewline, t.isNewline = true :=
    fun t ht => List.all_eq_true.mp (List.all_takeWhile ..) t ht
  refine (hg _ c₁ hfeeds (hlines.closed hc)).mono ?_
  rintro b c₂ ⟨M, ⟨hM, hQ⟩, -, hmirrors⟩
  exact ⟨_, hQ, ungapped_tokens _ hM.fronted.ungapped, hlines.clear hM hmirrors⟩

end Repeats

end Gaps

end Parser

end ScriptPir

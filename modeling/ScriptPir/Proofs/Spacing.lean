import ScriptPir.Proofs.Leaves

/-!
# Places where line feeds have no meaning

In most places a line feed ends a statement. In some it has no meaning: behind a binary operator, inside
the brackets of an expression, an index, a call or parameters, and behind a comma of a list. A *layout* has
the tokens of a program with these places between them (`Piece.gap`), and `Laid n L` says that `L` is a
layout of the tree `n`. There is a rule for every kind of node that has gaps of its own; all other nodes are
laid out as rows of their children.

A layout with more line feeds in its gaps is a wider one (`Wider`). A parser finds the same in both only if
it does not matter to it what stands behind them. How much alike that has to be depends on the parser:

* `Free` — it only looks at what it takes;
* `NoLine` — it takes all line feeds;
* `Meets` — an expression: a line feed or a closing bracket ends it, and it does not matter which;
* `Heads` — a list of statements: the next token is the same;
* `Apart` — a statement: the next token is the same, and no operator.
-/

namespace ScriptPir

/-! ## Layouts

A layout is more than a list of tokens with marks: `Laid` ties it to a tree, so that a gap is only
where the grammar has one. Widening is defined on layouts, apart from trees. -/

/-- A line feed among the tokens of a program. -/
abbrev LineFeed := { t : Token // t.isNewline = true }

/-- A token of a program, or a place where line feeds have no meaning, with those that stand there. -/
inductive Piece where
  | token (t : Token)
  | gap (lines : List LineFeed)

/-- The tokens that stand in a piece. -/
def Piece.tokens : Piece → List Token
  | token t => [t]
  | gap lines => lines.map (·.val)

/-- The tokens of a layout. -/
def written (L : List Piece) : List Token := L.flatMap Piece.tokens

@[simp] theorem written_nil : written [] = [] := rfl

/-- The tokens of a piece stand in front of those of the others. -/
@[simp] theorem written_cons (p : Piece) (L : List Piece) :
    written (p :: L) = p.tokens ++ written L := rfl

@[simp] theorem written_append (L M : List Piece) : written (L ++ M) = written L ++ written M :=
  List.flatMap_append

/-- The same piece, or the same place with more line feeds. -/
inductive Piece.Wider : Piece → Piece → Prop
  | token (t : Token) : Wider (token t) (token t)
  | gap {lines lines' : List LineFeed} (h : lines.Sublist lines') : Wider (gap lines) (gap lines')

/-- The same layout with more line feeds in its gaps. -/
abbrev Wider (L L' : List Piece) : Prop := List.Forall₂ Piece.Wider L L'

/-- Whether a node is laid out as a row: it has neither gaps nor brackets of its own. -/
def Kind.isRow : Kind → Bool
  | .terminal | .binary | .compare | .logic | .paren | .index | .call | .args | .params | .forLoop
  | .arrayInit => false
  | _ => true

/-- A layout of some trees with separators, words of statements and colons between them. -/
inductive Row (P : Node → List Piece → Prop) : List Node → List Piece → Prop
  | done : Row P [] []
  | mute {t : Token} {ns : List Node} {M : List Piece} (ht : t.isMute = true ∨ t.isOp ":" = true)
      (h : Row P ns M) : Row P ns (.token t :: M)
  | child {n : Node} {ns : List Node} {L M : List Piece} (hn : P n L) (h : Row P ns M) :
      Row P (n :: ns) (L ++ M)

/-- A layout of some trees with commas between them, and a gap behind every comma. -/
inductive Listed (P : Node → List Piece → Prop) : List Node → List Piece → Prop
  | nil : Listed P [] []
  | one {n : Node} {L : List Piece} (hn : P n L) : Listed P [n] L
  | cons {n : Node} {ns : List Node} {comma first : Token} {L M : List Piece} (lines : List LineFeed)
      (hcomma : comma.kind = .comma) (hn : P n L) (hns : Listed P ns (.token first :: M)) :
      Listed P (n :: ns) (L ++ .token comma :: .gap lines :: .token first :: M)

/-- A layout of some trees in brackets, with commas between them: there are gaps behind the opening bracket
and before the closing one. -/
inductive Bracketed (P : Node → List Piece → Prop) : Token × Token → List Node → List Piece → Prop
  | empty {o d : Token} (lines : List LineFeed) : Bracketed P (o, d) [] [.token o, .gap lines, .token d]
  | full {o d : Token} {ns : List Node} {L : List Piece} (lines lines' : List LineFeed)
      (hns : Listed P ns L) :
      Bracketed P (o, d) ns (.token o :: .gap lines :: (L ++ [.gap lines', .token d]))

/-- A layout of a tree. No bracket stands in a row: there is a rule for each construct with brackets. -/
inductive Laid : Node → List Piece → Prop
  | leaf (id : Int) (t : Token) : Laid (.mk id .terminal t []) [.token t]
  | row {id : Int} {kind : Kind} {t : Token} {children : List Node} {L : List Piece}
      (hkind : kind.isRow = true) (h : Row Laid children L) : Laid (.mk id kind t children) L
  /-- Behind a binary operator there is a gap. -/
  | operation {id opId : Int} {op : Operator} {t sign first : Token} {left right : Node}
      {L M : List Piece} (lines : List LineFeed) (hop : Operator.ofToken? sign = some op)
      (hleft : Laid left L) (hright : Laid right (.token first :: M)) :
      Laid (.mk id op.kind t [left, .mk opId .terminal sign [], right])
        (L ++ .token sign :: .gap lines :: .token first :: M)
  | paren {id openId closeId : Int} {t o d : Token} {e : Node} {L : List Piece}
      (ho : o.isOpening "(" = true) (hd : d.isClosing ")" = true) (he : Bracketed Laid (o, d) [e] L) :
      Laid (.mk id .paren t [.mk openId .terminal o [], e, .mk closeId .terminal d []]) L
  | element {id openId closeId : Int} {t o d : Token} {array e : Node} {N L : List Piece}
      (ho : o.isOpening "[" = true) (hd : d.isClosing "]" = true) (harray : Laid array N)
      (he : Bracketed Laid (o, d) [e] L) :
      Laid (.mk id .index t [array, .mk openId .terminal o [], e, .mk closeId .terminal d []]) (N ++ L)
  | call {id argsId : Int} {t u o d : Token} {callee : Node} {args : List Node} {N L : List Piece}
      (ho : o.isOpening "(" = true) (hd : d.isClosing ")" = true) (hcallee : Laid callee N)
      (hargs : Bracketed Laid (o, d) args L) :
      Laid (.mk id .call t [callee, .mk argsId .args u args]) (N ++ L)
  /-- A call without brackets has no gaps of its own. -/
  | command {id argsId : Int} {t u : Token} {callee : Node} {args : List Node} {N L : List Piece}
      (hcallee : Laid callee N) (hargs : Row Laid args L) :
      Laid (.mk id .call t [callee, .mk argsId .args u args]) (N ++ L)
  | params {id : Int} {t o d : Token} {names : List Node} {L : List Piece}
      (ho : o.isOpening "(" = true) (hd : d.isClosing ")" = true) (hnames : Bracketed Laid (o, d) names L) :
      Laid (.mk id .params t names) L
  | bareParams {id : Int} {t : Token} {names : List Node} {L : List Piece}
      (hnames : Listed Laid names L) : Laid (.mk id .params t names) L
  /-- The header of a loop has brackets, and no gaps of its own. -/
  | loop {id : Int} {t o d : Token} {header body : List Node} {L M : List Piece}
      (ho : o.isOpening "(" = true) (hd : d.isClosing ")" = true) (hheader : Row Laid header L)
      (hbody : Row Laid body M) :
      Laid (.mk id .forLoop t (header ++ body)) (.token t :: .token o :: (L ++ .token d :: M))
  /-- An empty array has brackets, and no gaps. -/
  | array {id : Int} {t o d : Token} {children : List Node} {L : List Piece}
      (ho : o.isOpening "[" = true) (hd : d.isClosing "]" = true) (h : Row Laid children L) :
      Laid (.mk id .arrayInit t children) (L ++ [.token o, .token d])

namespace Row

variable {P : Node → List Piece → Prop} {ms ns : List Node} {L M : List Piece}

/-- Two rows make up one. -/
theorem append (h : Row P ms L) (h' : Row P ns M) : Row P (ms ++ ns) (L ++ M) := by
  induction h with
  | done => exact h'
  | mute ht _ ih => exact .mute ht ih
  | child hn _ ih =>
    rw [List.append_assoc]
    exact .child hn ih

theorem single {n : Node} (hn : P n L) : Row P [n] L := by
  have h := Row.child hn (.done (P := P))
  rwa [List.append_nil] at h

/-- A terminal may stand in front of a row. -/
theorem leaf (id : Int) (t : Token) (h : Row Laid ns M) :
    Row Laid (.mk id .terminal t [] :: ns) (.token t :: M) :=
  .child (.leaf id t) h

/-- A separator or a word may stand behind a row. -/
theorem closed {t : Token} (h : Row P ns L) (ht : t.isMute = true) : Row P ns (L ++ [.token t]) := by
  have hend : Row P [] [.token t] := .mute (.inl ht) .done
  simpa using h.append hend

/-- Separators and words may stand in front of a row. -/
theorem mutes {ts : List Token} (hts : ∀ t ∈ ts, t.isMute = true) (h : Row P ns M) :
    Row P ns (ts.map .token ++ M) := by
  induction ts with
  | nil => exact h
  | cons t ts ih =>
    rw [List.forall_mem_cons] at hts
    exact .mute (.inl hts.1) (ih hts.2)

end Row

/-! ## Where layouts begin

A parser that looks at the token ahead has to find the same one in a wider layout. So it matters
whether a layout begins with a gap, with a token, or with one that is no line feed. -/

/-- A layout begins with a token. -/
def Fronted (L : List Piece) : Prop := ∃ t M, L = .token t :: M

/-- A layout does not begin with a gap. -/
def Ungapped (L : List Piece) : Prop := L = [] ∨ Fronted L

/-- A layout begins with a token that is no line feed. -/
def StartsInline (L : List Piece) : Prop := ∃ t M, L = .token t :: M ∧ t.isNewline = false

/-- A layout begins as that of an expression: behind its first token there is no gap, if that is no
bracket, and a sign is not alone. -/
def StartsExpr (L : List Piece) : Prop :=
  ∃ t M, L = .token t :: M ∧ t.isNewline = false ∧ (t.kind = .opening ∨ Ungapped M) ∧
    (t.kind = .op → Fronted M)

theorem fronted_cons (t : Token) (L : List Piece) : Fronted (.token t :: L) := ⟨t, L, rfl⟩

/-- How a layout begins does not depend on what is laid out behind it. -/
theorem Fronted.append {L : List Piece} (h : Fronted L) (M : List Piece) : Fronted (L ++ M) := by
  obtain ⟨t, N, rfl⟩ := h
  exact fronted_cons t (N ++ M)

theorem Fronted.ungapped {L : List Piece} (h : Fronted L) : Ungapped L := .inr h

theorem ungapped_nil : Ungapped [] := .inl rfl

/-- A layout with a token in front does not begin with a gap. -/
theorem ungapped_cons (t : Token) (L : List Piece) : Ungapped (.token t :: L) := (fronted_cons t L).ungapped

/-- Two layouts begin without a gap if both do, as the first one may be empty. -/
theorem Ungapped.append {L M : List Piece} (h : Ungapped L) (hM : Ungapped M) : Ungapped (L ++ M) := by
  obtain rfl | hL := h
  · exact hM
  · exact (hL.append M).ungapped

/-- Tokens do not begin with a gap. -/
theorem ungapped_tokens (ts : List Token) {L : List Piece} (h : Ungapped L) :
    Ungapped (ts.map .token ++ L) := by
  cases ts with
  | nil => exact h
  | cons t ts => exact ungapped_cons t _

/-- A token of another kind than a separator is no line feed. -/
theorem isNewline_of_kind {t : Token} (h : t.kind ≠ .semi) : t.isNewline = false := by
  simp [Token.isNewline, h]

/-- A layout with a token of another kind in front does not begin with a line feed. -/
theorem startsInline_cons {t : Token} (ht : t.kind ≠ .semi) (L : List Piece) : StartsInline (.token t :: L) :=
  ⟨t, L, rfl, isNewline_of_kind ht⟩

/-- What does not begin with a line feed begins with a token. -/
theorem StartsInline.fronted {L : List Piece} (h : StartsInline L) : Fronted L := by
  obtain ⟨t, M, rfl, -⟩ := h
  exact fronted_cons t M

/-- What does not begin with a line feed does so with more behind it. -/
theorem StartsInline.append {L : List Piece} (h : StartsInline L) (M : List Piece) : StartsInline (L ++ M) := by
  obtain ⟨t, N, rfl, ht⟩ := h
  exact ⟨t, N ++ M, rfl, ht⟩

/-- A token that is no sign, without a gap behind it, may begin an expression. -/
theorem startsExpr_cons {t : Token} (ht : t.kind ≠ .semi) (hop : t.kind ≠ .op) {L : List Piece}
    (hL : Ungapped L) : StartsExpr (.token t :: L) :=
  ⟨t, L, rfl, isNewline_of_kind ht, .inr hL, fun h => absurd h hop⟩

theorem startsExpr_sign {t : Token} (ht : t.kind ≠ .semi) {L : List Piece} (hL : Fronted L) :
    StartsExpr (.token t :: L) :=
  ⟨t, L, rfl, isNewline_of_kind ht, .inr hL.ungapped, fun _ => hL⟩

/-- An expression does not begin with a line feed. -/
theorem StartsExpr.inline {L : List Piece} (h : StartsExpr L) : StartsInline L := by
  obtain ⟨t, M, rfl, ht, -⟩ := h
  exact ⟨t, M, rfl, ht⟩

theorem StartsExpr.fronted {L : List Piece} (h : StartsExpr L) : Fronted L := h.inline.fronted

/-- How an expression begins does not depend on what is laid out behind it, if there is no gap in
between. -/
theorem StartsExpr.append {L M : List Piece} (h : StartsExpr L) (hM : Ungapped M) : StartsExpr (L ++ M) := by
  obtain ⟨t, N, rfl, ht, hN, hsign⟩ := h
  exact ⟨t, N ++ M, rfl, ht, hN.imp_right fun hN => hN.append hM, fun hop => (hsign hop).append M⟩

/-! ## Wider layouts

A wider layout can be taken apart along the narrower one, since only gaps differ. -/

namespace Wider

variable {L M N : List Piece} {t : Token}

/-- A layout is no narrower than itself. -/
theorem refl (L : List Piece) : Wider L L := by
  induction L with
  | nil => exact .nil
  | cons p L ih =>
    refine .cons ?_ ih
    cases p with
    | token t => exact .token t
    | gap lines => exact .gap (List.Sublist.refl lines)

/-- A layout wider than two is made of two wider ones. -/
theorem of_append (h : Wider (L ++ M) N) :
    ∃ L' M', N = L' ++ M' ∧ Wider L L' ∧ Wider M M' := by
  induction L generalizing N with
  | nil => exact ⟨[], N, rfl, .nil, h⟩
  | cons p L ih =>
    cases h with
    | cons hp h =>
      obtain ⟨L', M', rfl, hL, hM⟩ := ih h
      exact ⟨_ :: L', M', rfl, .cons hp hL, hM⟩

/-- A layout wider than one with a token in front has the same token in front. -/
theorem of_token (h : Wider (.token t :: L) N) : ∃ L', N = .token t :: L' ∧ Wider L L' := by
  cases h with
  | cons hp h =>
    cases hp
    exact ⟨_, rfl, h⟩

/-- A layout wider than one with a gap in front has a gap in front. -/
theorem of_gap {lines : List LineFeed} (h : Wider (.gap lines :: L) N) :
    ∃ lines' L', N = .gap lines' :: L' ∧ Wider L L' := by
  cases h with
  | cons hp h =>
    cases hp
    exact ⟨_, _, rfl, h⟩

/-- A wider layout has no fewer tokens. -/
theorem length_le (h : Wider L N) : (written L).length ≤ (written N).length := by
  induction h with
  | nil => exact Nat.le_refl _
  | cons hp h ih =>
    cases hp with
    | token t => simpa using ih
    | gap hlines =>
      have hle := hlines.length_le
      simp only [written_cons, Piece.tokens, List.length_append, List.length_map]
      omega

end Wider

/-! ## Where layouts end

The layout of a tree ends with a token, so the last token of a tree is the same in all wider layouts.
Where it ends in the text is needed for the place of the end of input. -/

/-- A layout does not end with a gap. -/
def Tight (L : List Piece) : Prop := ∀ p ∈ L.getLast?, ∃ t, p = .token t

theorem tight_nil : Tight [] := nofun

/-- A layout with a token at its end does not end with a gap. -/
theorem tight_concat (L : List Piece) (t : Token) : Tight (L ++ [.token t]) := by
  intro p hp
  rw [List.getLast?_concat] at hp
  exact ⟨t, (Option.some.inj hp).symm⟩

/-- Two layouts that do not end with gaps make up one that does not. -/
theorem Tight.append {L M : List Piece} (hL : Tight L) (hM : Tight M) : Tight (L ++ M) := by
  intro p hp
  rw [List.getLast?_append] at hp
  cases hlast : M.getLast? with
  | none =>
    rw [hlast] at hp
    exact hL p hp
  | some q =>
    rw [hlast] at hp
    exact hM p (hlast ▸ hp)

theorem tight_token (t : Token) {L : List Piece} (h : Tight L) : Tight (.token t :: L) :=
  (tight_concat [] t).append h

/-- A gap in front of a token does not change how a layout ends. -/
theorem tight_gap (lines : List LineFeed) {t : Token} {L : List Piece} (h : Tight (.token t :: L)) :
    Tight (.gap lines :: .token t :: L) := by
  intro p hp
  rw [List.getLast?_cons_cons] at hp
  exact h p hp

/-- What is in brackets ends with one. -/
theorem Bracketed.tight {P : Node → List Piece → Prop} {od : Token × Token} {ns : List Node}
    {L : List Piece} (h : Bracketed P od ns L) : Tight L := by
  cases h with
  | @empty o d lines => exact tight_concat [.token o, .gap lines] d
  | @full o d ns L lines lines' hns =>
    have h := tight_concat (.token o :: .gap lines :: (L ++ [.gap lines'])) d
    rwa [List.cons_append, List.cons_append, List.append_assoc] at h

mutual

/-- A gap is always followed by a token. -/
theorem Laid.tight {n : Node} {L : List Piece} : Laid n L → Tight L
  | .leaf _ t => tight_concat [] t
  | .row _ h => Row.tight h
  | .operation lines _ hleft hright =>
    (Laid.tight hleft).append (tight_token _ (tight_gap lines (Laid.tight hright)))
  | .paren _ _ he => he.tight
  | .element _ _ harray he => (Laid.tight harray).append he.tight
  | .call _ _ hcallee hargs => (Laid.tight hcallee).append hargs.tight
  | .command hcallee hargs => (Laid.tight hcallee).append (Row.tight hargs)
  | .params _ _ hnames => hnames.tight
  | .bareParams hnames => Listed.tight hnames
  | .loop _ _ hheader hbody =>
    tight_token _ (tight_token _ ((Row.tight hheader).append (tight_token _ (Row.tight hbody))))
  | .array _ _ h => (Row.tight h).append (tight_token _ (tight_concat [] _))

/-- A row does not end with a gap. -/
theorem Row.tight {ns : List Node} {L : List Piece} : Row Laid ns L → Tight L
  | .done => tight_nil
  | .mute _ h => tight_token _ (Row.tight h)
  | .child hn h => (Laid.tight hn).append (Row.tight h)

/-- A list does not end with a gap. -/
theorem Listed.tight {ns : List Node} {L : List Piece} : Listed Laid ns L → Tight L
  | .nil => tight_nil
  | .one hn => Laid.tight hn
  | .cons lines _ hn hns =>
    (Laid.tight hn).append (tight_token _ (tight_gap lines (Listed.tight hns)))

end

/-- The last token of a wider layout is the same. -/
theorem Tight.getLast?_written {L L' : List Piece} (hL : Tight L) (h : Wider L L') :
    (written L').getLast? = (written L).getLast? := by
  obtain rfl | ⟨M, p, rfl⟩ := L.eq_nil_or_concat
  · cases h
    rfl
  · rw [List.concat_eq_append] at hL h ⊢
    obtain ⟨t, rfl⟩ := hL p List.getLast?_concat
    obtain ⟨M', N, rfl, -, hN⟩ := h.of_append
    obtain ⟨_, rfl, hnil⟩ := hN.of_token
    cases hnil
    simp [Piece.tokens]

/-! ## What stands behind a layout

A parser may look beyond its layout. How alike two texts have to be there is a relation of token
lists (`Sequel`); `Extends` says which relation in front of a layout follows from which behind it. -/

/-- A token at which no expression goes on, and which is no comma: a line feed or a closing bracket. -/
def Token.Inert (t : Token) : Prop := t.isNewline = true ∨ t.kind = .closing

namespace Token.Inert

variable {t : Token}

/-- An inert token is a separator or a closing bracket. -/
theorem kind_cases (h : t.Inert) : t.kind = .semi ∨ t.kind = .closing := by
  refine h.imp_left fun h => ?_
  simp only [Token.isNewline, Bool.and_eq_true, decide_eq_true_eq] at h
  exact h.1

theorem not_operator (h : t.Inert) : Operator.ofToken? t = none := by
  rcases h.kind_cases with hkind | hkind <;> simp [Operator.ofToken?, hkind]

theorem isOp_eq_false (h : t.Inert) (op : String) : t.isOp op = false := by
  rcases h.kind_cases with hkind | hkind <;> simp [Token.isOp, hkind]

theorem isOpening_eq_false (h : t.Inert) (bracket : String) : t.isOpening bracket = false := by
  rcases h.kind_cases with hkind | hkind <;> simp [Token.isOpening, hkind]

theorem kind_ne_comma (h : t.Inert) : t.kind ≠ .comma := by
  rcases h.kind_cases with hkind | hkind <;> simp [hkind]

end Token.Inert

section Sequel

/-- A relation of what stands behind a layout to what stands behind a wider one. -/
abbrev Sequel := List Token → List Token → Prop

/-- Anything may stand there. -/
def Free : Sequel := fun _ _ => True

/-- Anything but a line feed may stand there. -/
def NoLine : Sequel := fun _ r' => ∀ t ∈ r'.head?, t.isNewline = false

/-- The same token stands there, or in both places one that ends an expression. -/
def Meets : Sequel := fun r r' =>
  r.head? = r'.head? ∨ ∃ t t', r.head? = some t ∧ r'.head? = some t' ∧ t.Inert ∧ t'.Inert

/-- The same token stands there. -/
def Heads : Sequel := fun r r' => r.head? = r'.head?

/-- The same token stands there, and it is no operator. -/
def Apart : Sequel := fun r r' => Heads r r' ∧ ∀ t ∈ r.head?, t.kind ≠ .op

/-- What `H` says behind a layout that does not begin with a gap, `G` says in front of it. -/
class Extends (H G : Sequel) : Prop where
  extend {M M' : List Piece} {r r' : List Token} :
    Ungapped M → Wider M M' → H r r' → G (written M ++ r) (written M' ++ r')

instance (H : Sequel) : Extends H Free := ⟨fun _ _ _ => trivial⟩

instance : Extends Heads Heads where
  extend hM hwider h := by
    obtain rfl | ⟨t, M, rfl⟩ := hM
    · cases hwider
      exact h
    · obtain ⟨M', rfl, -⟩ := hwider.of_token
      rfl

instance : Extends Meets Meets where
  extend hM hwider h := by
    obtain rfl | ⟨t, M, rfl⟩ := hM
    · cases hwider
      exact h
    · obtain ⟨M', rfl, -⟩ := hwider.of_token
      exact .inl rfl

instance : Extends Heads Meets where
  extend hM hwider h := Extends.extend (H := Meets) hM hwider (.inl h)

instance : Extends Apart Heads where
  extend hM hwider h := Extends.extend (H := Heads) hM hwider h.1

instance : Extends Apart Meets where
  extend hM hwider h := Extends.extend (H := Heads) hM hwider h.1

/-- In front of a closing bracket an expression ends, with and without line feeds. -/
theorem meets_of_closing {lines : List LineFeed} {d : Token} {M M' : List Piece} {r r' : List Token}
    (hd : d.kind = .closing) (h : Wider (.gap lines :: .token d :: M) M') :
    Meets (written (.gap lines :: .token d :: M) ++ r) (written M' ++ r') := by
  obtain ⟨lines', M₁, rfl, hbracket⟩ := h.of_gap
  obtain ⟨M₂, rfl, -⟩ := hbracket.of_token
  have hhead : ∀ (lines : List LineFeed) (s : List Token),
      ∃ t, (lines.map (·.val) ++ d :: s).head? = some t ∧ t.Inert := by
    intro lines s
    cases lines with
    | nil => exact ⟨d, rfl, .inr hd⟩
    | cons line lines => exact ⟨line.val, rfl, .inl line.property⟩
  obtain ⟨t, ht, hinert⟩ := hhead lines (written M ++ r)
  obtain ⟨t', ht', hinert'⟩ := hhead lines' (written M₂ ++ r')
  refine .inr ⟨t, t', ?_, ?_, hinert, hinert'⟩
  · simpa [Piece.tokens] using ht
  · simpa [Piece.tokens] using ht'

end Sequel

end ScriptPir

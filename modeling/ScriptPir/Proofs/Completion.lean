import ScriptPir.Proofs.Growth

/-!
# Completing what was begun

A parse that came to the end of some full lines can go on. `Parser.Closes` says so of a parser: if it comes
to the end of the tokens, there are words that complete what it has begun, if they stand behind a further
line feed. What these words are depends on where it stopped; `Parser.Finishes` says what a parser takes
from the start. An index may turn out wrong once it is closed, so a completion may also end there
(`Parser.Completed`).

The rules for the combinators of the parser stand here. They come in two families: `Finishes` for what
is read from its first token, and `Closes` for what was begun before the end of the lines.
-/

namespace ScriptPir

/-! ## Words

Eight words are enough to complete any program: a constant, a name, the brackets, a semicolon, an
equals sign, `end` and a line feed. None of them is a float or a string, so what is completed by them
holds no constant that an index could reject. -/

/-- The words that completions are made of. -/
inductive Word where
  | one
  | name
  | round
  | square
  | semicolon
  | equals
  | stop
  | newline
deriving DecidableEq, Repr

namespace Word

def kind : Word → TokenKind
  | one => .int
  | name | stop => .ident
  | round | square => .closing
  | semicolon | newline => .semi
  | equals => .op

def text : Word → String
  | one => "1"
  | name => "a"
  | round => ")"
  | square => "]"
  | semicolon => ";"
  | equals => "="
  | stop => "end"
  | newline => "\n"

/-- A token is a given word, wherever it stands. -/
def Says (w : Word) (t : Token) : Prop := t.kind = w.kind ∧ t.text = w.text

end Word

/-- Some tokens are some words. -/
def Spelled (words : List Word) (tokens : List Token) : Prop := List.Forall₂ Word.Says words tokens

/-- A token is neither a float nor a string. -/
def Token.Plain (t : Token) : Prop := t.kind ≠ .float ∧ t.kind ≠ .string

/-- No word is a float or a string. -/
theorem Word.Says.plain {w : Word} {t : Token} (h : w.Says t) : t.Plain := by
  unfold Token.Plain
  rw [h.1]
  cases w <;> decide

theorem Word.Says.isNewline {w : Word} {t : Token} (h : w.Says t) (hw : w ≠ .newline) :
    t.isNewline = false := by
  cases w <;> simp [Token.isNewline, h.1, h.2, Word.kind, Word.text] at hw ⊢

/-- Nothing that is spelled by words is a float or a string. -/
theorem Spelled.plain {words : List Word} {tokens : List Token} (h : Spelled words tokens) :
    ∀ t ∈ tokens, t.Plain := by
  induction h with
  | nil => exact fun t ht => by cases ht
  | cons hspoken _ ih => exact List.forall_mem_cons.mpr ⟨hspoken.plain, ih⟩

/-- What stands behind a completion: a token of a given class first, and neither floats nor strings. -/
structure Future (S : Token → Prop) (rest : List Token) (last : Except SyntaxError Token) : Prop where
  faces : ∃ t, Cursor.ahead ⟨rest, last, 0⟩ = .ok t ∧ S t
  plain : ∀ t ∈ rest, t.Plain
  closed : ∀ t, last = .ok t → t.kind = .eof

/-- What may stand behind a completion is judged by its first token. -/
theorem Future.mono {S S' : Token → Prop} {rest : List Token} {last : Except SyntaxError Token}
    (h : Future S rest last) (hle : ∀ t, S t → S' t) : Future S' rest last := by
  obtain ⟨t, hahead, ht⟩ := h.faces
  exact ⟨⟨t, hahead, hle t ht⟩, h.plain, h.closed⟩

/-- Words lead to what follows them from what they follow. -/
def Leads (S : Token → Prop) (words : List Word) (S' : Token → Prop) : Prop :=
  ∀ t, (words.head?.elim (S' t) (·.Says t)) → S t

/-- Behind words that lead on, what follows is found by way of the first word. -/
theorem Leads.future {S S' : Token → Prop} {words : List Word} (h : Leads S words S')
    {tokens rest : List Token} {last : Except SyntaxError Token} (hspelled : Spelled words tokens)
    (hfuture : Future S' rest last) : Future S (tokens ++ rest) last := by
  cases hspelled with
  | nil => exact hfuture.mono h
  | @cons w t words tokens hspoken hspelled =>
    refine ⟨⟨t, rfl, h t hspoken⟩, List.forall_mem_append.mpr ⟨?_, hfuture.plain⟩, hfuture.closed⟩
    exact List.forall_mem_cons.mpr ⟨hspoken.plain, Spelled.plain hspelled⟩

/-! ## Full lines

A text that is read line by line ends with a line feed, and its parse stops at the end of its tokens.
So before any token that is no line feed there is room for another one. -/

/-- The tokens of some full lines. -/
structure FullLines where
  tokens : List Token
  closed : ∃ front newline, tokens = front ++ [newline] ∧ newline.isNewline = true
  present : ∀ t ∈ tokens, t.kind ≠ .eof

namespace FullLines

variable {x : FullLines} {c : Cursor}

/-- A cursor that has tokens left. -/
structure Within (x : FullLines) (c : Cursor) : Prop where
  suffix : c.rest <:+ x.tokens
  ne_nil : c.rest ≠ []
  ending_eq : c.ending = .ok (endToken x.tokens)

theorem Within.kind (h : x.Within c) {t : Token} (ht : t ∈ c.rest) : t.kind ≠ .eof :=
  x.present t (h.suffix.mem ht)

/-- Behind a token that is no line feed there is another one. -/
theorem Within.length_lt (h : x.Within c) {i : Nat} {t : Token} (ht : c.rest[i]? = some t)
    (hline : t.isNewline = false) : i + 1 < c.rest.length := by
  obtain ⟨front, newline, htokens, hnewline⟩ := x.closed
  obtain ⟨passed, hpassed⟩ := h.suffix
  obtain ⟨front', last, hrest⟩ : ∃ front' last, c.rest = front' ++ [last] :=
    ⟨_, _, (List.dropLast_append_getLast h.ne_nil).symm⟩
  -- both end with the same token, as one is the end of the other
  have hlast : last = newline := by
    rw [htokens, hrest, ← List.append_assoc] at hpassed
    exact (List.append_inj_right' hpassed rfl |> List.cons.inj).1
  obtain ⟨hlt, -⟩ := List.getElem?_eq_some_iff.mp ht
  rcases Nat.lt_or_ge (i + 1) c.rest.length with hlt' | hge
  · exact hlt'
  · -- the last token is a line feed
    have hi : i = front'.length := by
      rw [hrest, List.length_append, List.length_singleton] at hlt hge
      omega
    rw [hrest, hi] at ht
    simp only [List.getElem?_concat_length, Option.some.injEq] at ht
    rw [← ht, hlast, hnewline] at hline
    cases hline

/-- A token that is no line feed can be taken. -/
theorem Within.advanced (h : x.Within c) {t : Token} (ht : c.rest[0]? = some t)
    (hline : t.isNewline = false) : x.Within c.advanced ∧ c.advanced.rest.length + 1 = c.rest.length := by
  have hlength := h.length_lt ht hline
  have htail : c.advanced.rest.length = c.rest.length - 1 := List.length_tail
  refine ⟨⟨(List.tail_suffix _).trans h.suffix, ?_, h.ending_eq⟩, by omega⟩
  intro hnil
  rw [hnil, List.length_nil] at htail
  omega

/-- There is a first token. -/
theorem Within.exists_head (h : x.Within c) : ∃ t : Token, c.rest[0]? = some t ∧ t.kind ≠ .eof := by
  obtain ⟨t, rest, hrest⟩ := List.exists_cons_of_ne_nil h.ne_nil
  have ht : c.rest[0]? = some t := by
    rw [hrest]
    rfl
  exact ⟨t, ht, h.kind (List.mem_of_getElem? ht)⟩

end FullLines

namespace Parser

variable {α β : Type} {x : FullLines} {c c' : Cursor} {S S' : Token → Prop}

/-! ## From the start

The rules for sequencing, looking ahead and taking a token, when all of the words are still to come.
A parser that looks ahead behind its last word sees what follows, of which only the class `S` is
known. -/

/-- A parser takes some words and stops before what follows them. -/
def Finishes (S : Token → Prop) (words : List Word) (p : Parser α) (Q : α → Prop) : Prop :=
  ∀ c tokens rest, Spelled words tokens → Future S rest c.ending → c.rest = tokens ++ rest →
    ∃ a c', p.run c = .ok (a, c') ∧ Q a ∧ c'.rest = rest ∧ c'.ending = c.ending

/-- Whatever the result. -/
abbrev Takes (S : Token → Prop) (words : List Word) (p : Parser α) : Prop :=
  Finishes S words p fun _ => True

namespace Finishes

variable {words words' : List Word} {p : Parser α} {f : α → Parser β} {Q : α → Prop} {R : β → Prop}

/-- The words of two parsers stand one behind the other, if the first words of the second may follow the
first parser. -/
theorem bind (hp : Finishes S' words p Q) (hf : ∀ a, Q a → Finishes S words' (f a) R)
    (hleads : Leads S' words' S) : Finishes S (words ++ words') (p >>= f) R := by
  intro c tokens rest hspelled hfuture hrest
  obtain ⟨first, second, rfl, hfirst, hsecond⟩ := Shape.forall₂_append_left.mp hspelled
  rw [List.append_assoc] at hrest
  obtain ⟨a, c₁, hrun, ha, hrest₁, hending⟩ := hp c first _ hfirst (hleads.future hsecond hfuture) hrest
  rw [← hending] at hfuture
  obtain ⟨b, c₂, hrun₂, hb, hrest₂, hending₂⟩ := hf a ha c₁ second rest hsecond hfuture hrest₁
  exact ⟨b, c₂, by rw [StateT.run_bind, hrun]; exact hrun₂, hb, hrest₂, hending₂.trans hending⟩

/-- What may follow can be restricted, and what is known of the result forgotten. -/
theorem mono (h : Finishes S' words p Q) (hle : ∀ t, S t → S' t) {Q' : α → Prop} (hQ : ∀ a, Q a → Q' a) :
    Finishes S words p Q' := by
  intro c tokens rest hspelled hfuture hrest
  obtain ⟨a, c', hrun, ha, hrest', hending⟩ := h c tokens rest hspelled (hfuture.mono hle) hrest
  exact ⟨a, c', hrun, hQ a ha, hrest', hending⟩

/-- A result takes no words. -/
theorem pure {a : α} (ha : Q a) : Finishes S [] (Pure.pure a : Parser α) Q := by
  intro c tokens rest hspelled _ hrest
  cases hspelled
  exact ⟨a, c, rfl, ha, hrest, rfl⟩

/-- A word that is looked at. -/
theorem peek_bind {w : Word} {f : Token → Parser β}
    (hf : ∀ t, w.Says t → Finishes S (w :: words) (f t) R) : Finishes S (w :: words) (peek >>= f) R := by
  intro c tokens rest hspelled hfuture hrest
  obtain ⟨t, tokens', hspoken, -, rfl⟩ := List.forall₂_cons_left_iff.mp hspelled
  obtain ⟨b, c', hrun, hb⟩ := hf t hspoken c _ rest hspelled hfuture hrest
  refine ⟨b, c', ?_, hb⟩
  rw [StateT.run_bind, run_peek, Cursor.ahead, hrest]
  exact hrun

/-- What follows is looked at. -/
theorem peek_bind_nil {f : Token → Parser β} (hf : ∀ t, S t → Finishes S [] (f t) R) :
    Finishes S [] (peek >>= f) R := by
  intro c tokens rest hspelled hfuture hrest
  cases hspelled
  obtain ⟨t, hahead, ht⟩ := hfuture.faces
  obtain ⟨b, c', hrun, hb⟩ := hf t ht c [] rest .nil hfuture hrest
  refine ⟨b, c', ?_, hb⟩
  have hc : c.ahead = .ok t := by
    rw [← hahead, Cursor.ahead, hrest]
    rfl
  rw [StateT.run_bind, run_peek, hc]
  exact hrun

/-- Whatever the token that is looked at. -/
theorem peek_bind_any {f : Token → Parser β} (hf : ∀ t, Finishes S words (f t) R) :
    Finishes S words (peek >>= f) R := by
  cases words with
  | nil => exact peek_bind_nil fun t _ => hf t
  | cons w words => exact peek_bind fun t _ => hf t

/-- The next token is the first word. -/
theorem next_bind {w : Word} {f : Token → Parser β} (hf : ∀ t, w.Says t → Finishes S words (f t) R) :
    Finishes S (w :: words) (next >>= f) R := by
  intro c tokens rest hspelled hfuture hrest
  obtain ⟨t, tokens', hspoken, hspelled', rfl⟩ := List.forall₂_cons_left_iff.mp hspelled
  have hadvanced : c.advanced.rest = tokens' ++ rest := by
    show c.rest.tail = _
    rw [hrest]
    rfl
  obtain ⟨b, c', hrun, hb⟩ := hf t hspoken c.advanced tokens' rest hspelled' hfuture hadvanced
  refine ⟨b, c', ?_, hb⟩
  rw [StateT.run_bind, run_next (t := t) (by rw [Cursor.ahead, hrest]; rfl)]
  exact hrun

/-- To take a token takes one word and gives a token that says it. -/
theorem next {w : Word} : Finishes S [w] next w.Says := by
  have h : Finishes S [w] (Parser.next >>= Pure.pure) w.Says := next_bind fun _ => pure
  rwa [bind_pure] at h

theorem skip {w : Word} : Takes S [w] skip :=
  next_bind fun _ _ => pure trivial

/-- A fresh id takes no words. -/
theorem fresh : Takes S [] fresh := by
  intro c tokens rest hspelled _ hrest
  cases hspelled
  exact ⟨_, _, rfl, trivial, hrest, rfl⟩

/-- Nothing is taken. -/
theorem bind_nil (hp : Finishes (fun _ => True) [] p Q) (hf : ∀ a, Q a → Finishes S words (f a) R) :
    Finishes S words (p >>= f) R := by
  rw [← List.nil_append words]
  exact hp.bind hf fun _ _ => trivial

/-- A node is made without words, and is the one that was asked for. -/
theorem made {kind : Kind} {t : Token} {children : List Node} :
    Finishes S [] (node kind t children) fun n => ∃ id, n = .mk id kind t children :=
  fresh.bind_nil fun id _ => pure ⟨id, rfl⟩

theorem node {kind : Kind} {t : Token} {children : List Node} : Takes S [] (node kind t children) :=
  made.mono (fun _ => id) fun _ _ => trivial

theorem term {t : Token} : Takes S [] (term t) := node

/-- No line feeds are passed where no line feed may follow. -/
theorem skipNewlines (hS : ∀ t, S t → t.isNewline = false) : Takes S [] skipNewlines := by
  intro c tokens rest hspelled hfuture hrest
  cases hspelled
  refine ⟨(), _, rfl, trivial, ?_, rfl⟩
  obtain ⟨t, hahead, ht⟩ := hfuture.faces
  show c.rest.dropWhile Token.isNewline = rest
  rw [hrest, List.nil_append]
  -- nothing is dropped from the front of what follows: its first token is known not to be a line feed
  cases rest with
  | nil => rfl
  | cons u rest =>
    cases hahead
    simp [hS t ht]

/-- Before a word that is no line feed nothing is skipped. -/
theorem skipNewlines_bind {w : Word} (hw : w ≠ .newline) {f : Unit → Parser β}
    (hf : Finishes S (w :: words) (f ()) R) : Finishes S (w :: words) (Parser.skipNewlines >>= f) R := by
  have hskip : Takes (fun t => t.isNewline = false) [] Parser.skipNewlines := skipNewlines fun _ => id
  exact hskip.bind (fun _ _ => hf) fun t ht => Word.Says.isNewline ht hw

/-- A token that is expected takes a word of its kind and text. -/
theorem expect {kind : TokenKind} {text : String} {w : Word} (hkind : w.kind = kind)
    (htext : w.text = text) : Takes S [w] (expect kind text) := by
  refine next_bind fun t ht => ?_
  rw [if_pos ⟨ht.1.trans hkind, ht.2.trans htext⟩]
  exact pure trivial

/-- A keyword takes the word that it is. -/
theorem expectKeyword {word : String} {w : Word} (hkind : w.kind = .ident) (htext : w.text = word) :
    Takes S [w] (expectKeyword word) := by
  refine next_bind fun t ht => ?_
  rw [if_pos (by simp [Token.isKeyword, ht.1, ht.2, hkind, htext])]
  exact pure trivial

/-- A name is expected: the word for names will do. -/
theorem expectName {what : String} : Takes S [.name] (expectName what) := by
  refine next_bind fun t ht => ?_
  have hkind : t.kind = .ident := ht.1
  have htext : t.text = "a" := ht.2
  have hname : t.isName = true := by
    rw [Token.isName, hkind, htext]
    decide
  rw [if_pos hname]
  exact pure trivial

end Finishes

/-! ## From the end of the lines

`Closes` compares two runs: `p` comes to the end of the lines, and `p'`, which has more fuel, runs on
the same lines with more behind them. The words depend on where `p` stopped, and are the same for all
that may follow. `Tracks` (of the growth of parses) says that before the end both runs are the same. -/

/-- From a cursor a parser comes to the end of the tokens: it fails there, or it stops there. -/
def Ends (p : Parser α) (c : Cursor) : Prop :=
  match p.run c with
  | .error e => e.token.kind = .eof
  | .ok (_, c') => c'.rest = []

/-- From a cursor a parser comes to some tokens, or it rejects a constant of the lines in an index. -/
def Completed (x : FullLines) (p : Parser α) (c : Cursor) (rest : List Token) : Prop :=
  (∃ a c', p.run c = .ok (a, c') ∧ c'.rest = rest ∧ c'.ending = c.ending) ∨
    ∃ e what, p.run c = .error e ∧ e.fault = .indexLiteral what ∧ e.token ∈ x.tokens

/-- What is completed in two parts is completed, and an index that is rejected in the first part ends
it. -/
theorem Completed.bind {p : Parser α} {f : α → Parser β} {rest rest' : List Token}
    (hp : Completed x p c rest') (hf : ∀ a c', p.run c = .ok (a, c') → c'.rest = rest' →
      c'.ending = c.ending → Completed x (f a) c' rest) : Completed x (p >>= f) c rest := by
  -- the second part may be completed, or it may reject an index in turn
  rcases hp with ⟨a, c', hrun, hrest, hending⟩ | ⟨e, what, hrun, hfault⟩
  · rcases hf a c' hrun hrest hending with ⟨b, c₂, hrun₂, hrest₂, hending₂⟩ | ⟨e, what, hrun₂, hfault⟩
    · refine .inl ⟨b, c₂, ?_, hrest₂, hending₂.trans hending⟩
      rw [StateT.run_bind, hrun]
      exact hrun₂
    · refine .inr ⟨e, what, ?_, hfault⟩
      rw [StateT.run_bind, hrun]
      exact hrun₂
  · refine .inr ⟨e, what, ?_, hfault⟩
    rw [StateT.run_bind, hrun]
    rfl

/-- Behind a part that succeeds, the rest is to be completed. -/
theorem Completed.after {p : Parser α} {f : α → Parser β} {rest : List Token} {a : α} {c₁ : Cursor}
    (hrun : p.run c = .ok (a, c₁)) (hending : c₁.ending = c.ending)
    (hf : Completed x (f a) c₁ rest) : Completed x (p >>= f) c rest := by
  have hp : Completed x p c c₁.rest := .inl ⟨a, c₁, hrun, rfl, hending⟩
  refine hp.bind fun b c₂ hrun₂ _ _ => ?_
  rw [hrun] at hrun₂
  cases hrun₂
  exact hf

/-- What is read from the start is completed, and no index is rejected. -/
theorem Finishes.completed {words : List Word} {p : Parser α} {Q : α → Prop} {tokens rest : List Token}
    (h : Finishes S words p Q) (hspelled : Spelled words tokens) (hfuture : Future S rest c.ending)
    (hrest : c.rest = tokens ++ rest) : Completed x p c rest := by
  obtain ⟨a, c', hrun, -, hrest', hending⟩ := h c tokens rest hspelled hfuture hrest
  exact .inl ⟨a, c', hrun, hrest', hending⟩

/-- A cursor with more tokens behind, the first of which is a line feed. -/
structure Behind (c c' : Cursor) (more : List Token) : Prop where
  rest_eq : ∃ newline, newline.isNewline = true ∧ c'.rest = c.rest ++ newline :: more
  nextId_eq : c'.nextId = c.nextId

/-- If a parser comes to the end of some lines, there are words with which one with more fuel comes to
what follows them. -/
def Closes (x : FullLines) (P : List Token → Prop) (S : Token → Prop) (n : Nat) (p p' : Parser α) : Prop :=
  ∀ c, x.Within c → P c.rest → c.rest.length < n → Ends p c →
    ∃ words, ∀ c' tokens rest, Behind c c' (tokens ++ rest) → Spelled words tokens →
      Future S rest c'.ending → Completed x p' c' rest

/-- More tokens stay behind when both cursors advance. -/
theorem Behind.advanced {more : List Token} (h : Behind c c' more) (hne : c.rest ≠ []) :
    Behind c.advanced c'.advanced more := by
  obtain ⟨newline, hnewline, hrest⟩ := h.rest_eq
  refine ⟨⟨newline, hnewline, ?_⟩, h.nextId_eq⟩
  show c'.rest.tail = c.rest.tail ++ _
  rw [hrest, List.tail_append_of_ne_nil hne]

/-- The first token is the same with more tokens behind. -/
theorem Behind.head {more : List Token} (h : Behind c c' more) (hc : x.Within c) {t : Token}
    (ht : c.rest[0]? = some t) : c'.rest[0]? = some t := by
  obtain ⟨newline, -, hrest⟩ := h.rest_eq
  rw [hrest, List.getElem?_append_left (List.length_pos_iff.mpr hc.ne_nil), ht]

/-- A parser fails, and not because of the end of input. -/
def Refuses (p : Parser α) : Prop := ∀ c, ∃ e, p.run c = .error e ∧ e.token.kind ≠ .eof

/-- A failure at a line feed is not one at the end of input. -/
theorem refuses_fail {t : Token} {fault : SyntaxFault} (h : t.isNewline = true) :
    Refuses (fail t fault : Parser α) :=
  fun _ => ⟨⟨t, fault⟩, rfl, by rw [kind_of_isNewline h]; decide⟩

/-- Nothing is run behind a parser that refuses. -/
theorem Refuses.bind {p : Parser α} {f : α → Parser β} (h : Refuses p) : Refuses (p >>= f) := by
  intro c
  obtain ⟨e, hrun, he⟩ := h c
  exact ⟨e, by rw [StateT.run_bind, hrun]; rfl, he⟩

theorem text_of_isNewline {t : Token} (h : t.isNewline = true) : t.text = "\n" := by
  simp only [Token.isNewline, Bool.and_eq_true, decide_eq_true_eq] at h
  exact h.2

theorem run_next_of_head {t : Token} (ht : c.rest[0]? = some t) : next.run c = .ok (t, c.advanced) :=
  run_next (by rw [Cursor.ahead, ht])

/-- A parser that takes a token and refuses it does not come to the end. -/
theorem not_ends_next_bind {t : Token} (ht : c.rest[0]? = some t) {f : Token → Parser β}
    (hf : Refuses (f t)) : ¬Ends (next >>= f) c := by
  obtain ⟨e, hrun, he⟩ := hf c.advanced
  unfold Ends
  rw [StateT.run_bind, run_next_of_head ht]
  show ¬match (f t).run c.advanced with
    | .error e => e.token.kind = .eof
    | .ok (_, c') => c'.rest = []
  rw [hrun]
  exact he

/-- A parser does not come to the end. -/
def Steady (x : FullLines) (P : List Token → Prop) (p : Parser α) : Prop :=
  ∀ c, x.Within c → P c.rest → ¬Ends p c

namespace Closes

variable {P : List Token → Prop} {n n' k : Nat} {may : Prop} {p p' : Parser α} {f f' : α → Parser β}

/-- A parser that does not come to the end has nothing to complete. -/
theorem of_steady (h : Steady x P p) : Closes x P S n p p' :=
  fun c hc hP _ hends => absurd hends (h c hc hP)

/-- What is completed for more tokens and a wider class of what follows is completed for fewer and a
narrower one. -/
theorem mono {P' : List Token → Prop} (h : Closes x P' S' n' p p') (hP : ∀ l, P l → P' l)
    (hS : ∀ t, S t → S' t) (hn : n ≤ n') : Closes x P S n p p' := by
  intro c hc hc' hlt hends
  obtain ⟨words, hwords⟩ := h c hc (hP _ hc') (by omega) hends
  exact ⟨words, fun c' tokens rest hbehind hspelled hfuture =>
    hwords c' tokens rest hbehind hspelled (hfuture.mono hS)⟩

theorem weaken (h : Closes x P S n' p p') (hn : n ≤ n') : Closes x P S n p p' :=
  h.mono (fun _ => id) (fun _ => id) hn

theorem any (h : Closes x Any S n p p') : Closes x P S n p p' :=
  h.mono (fun _ _ => trivial) (fun _ => id) (Nat.le_refl _)

/-- What a parser does before it comes to the end, it does in the whole text, too. -/
theorem follow (h : ∀ y, Tracks y P may n k p p') (hc : x.Within c) (hP : P c.rest)
    (hlt : c.rest.length < n) {a : α} {c₁ : Cursor} (hrun : p.run c = .ok (a, c₁)) (hne : c₁.rest ≠ []) :
    x.Within c₁ ∧ c₁.rest.length + k ≤ c.rest.length ∧ ∀ c' more, Behind c c' more →
      ∃ c₁', p'.run c' = .ok (a, c₁') ∧ Behind c₁ c₁' more ∧ c₁'.ending = c'.ending := by
  -- `Tracks` speaks of one text that goes on; any line feed and more tokens will do
  have hsame : ∀ c' newline more, newline.isNewline = true → c'.rest = c.rest ++ newline :: more →
      c'.nextId = c.nextId → ∃ c₁', p'.run c' = .ok (a, c₁') ∧ x.Within c₁ ∧
        c₁.rest.length + k ≤ c.rest.length ∧ c₁'.rest = c₁.rest ++ newline :: more ∧
        c₁'.nextId = c₁.nextId ∧ c₁'.ending = c'.ending := by
    intro c' newline more hnewline hrest hnextId
    let y : Continued := .lines x.tokens newline more c'.ending x.present hnewline
    have hprolongs : Prolongs y c c' := ⟨hc.suffix, hc.ending_eq, hrest, hnextId, rfl⟩
    have hfollows := h y c c' hprolongs hP hlt
    unfold Follows at hfollows
    rw [hrun] at hfollows
    rcases hfollows with ⟨c₁', hrun', hprolongs₁, hle⟩ | ⟨-, hspent⟩
    · exact ⟨c₁', hrun', ⟨hprolongs₁.suffix, hne, hprolongs₁.ending_eq⟩, hle, hprolongs₁.rest_eq,
        hprolongs₁.nextId_eq, hprolongs₁.last_eq⟩
    · exact absurd hspent.rest_eq hne
  -- where the first run stops does not depend on what follows, so a line feed alone shows it
  obtain ⟨-, newline, -, hnewline⟩ := x.closed
  obtain ⟨-, -, hwithin, hle, -⟩ := hsame { c with rest := c.rest ++ [newline] } newline [] hnewline rfl rfl
  refine ⟨hwithin, hle, fun c' more hbehind => ?_⟩
  obtain ⟨newline', hnewline', hrest⟩ := hbehind.rest_eq
  obtain ⟨c₁', hrun', -, -, hrest', hnextId', hending'⟩ :=
    hsame c' newline' more hnewline' hrest hbehind.nextId_eq
  exact ⟨c₁', hrun', ⟨⟨newline', hnewline', hrest'⟩, hnextId'⟩, hending'⟩

/-- The first parser does not come to the end, so the second one has to be completed. -/
theorem beyond (htracks : ∀ y, Tracks y P may n k p p')
    (hf : ∀ a c₁, p.run c = .ok (a, c₁) → Closes x Any S n' (f a) (f' a)) (hn : n ≤ n' + k)
    (hc : x.Within c) (hP : P c.rest) (hlt : c.rest.length < n) (hfirst : ¬Ends p c)
    (hends : Ends (p >>= f) c) : ∃ words, ∀ c' tokens rest, Behind c c' (tokens ++ rest) →
      Spelled words tokens → Future S rest c'.ending → Completed x (p' >>= f') c' rest := by
  unfold Ends at hends hfirst
  rw [StateT.run_bind] at hends
  -- the run of `p` fails before the end, which is excluded, or succeeds, and then `p'` does the same
  -- with more behind
  cases hrun : p.run c with
  | error e =>
    rw [hrun] at hends hfirst
    exact absurd hends hfirst
  | ok r =>
    rw [hrun] at hends hfirst
    obtain ⟨hc₁, hle, hsame⟩ := follow htracks hc hP hlt hrun hfirst
    obtain ⟨words, hwords⟩ := hf r.1 r.2 hrun r.2 hc₁ trivial (by omega) hends
    refine ⟨words, fun c' tokens rest hbehind hspelled hfuture => ?_⟩
    obtain ⟨c₁', hrun', hbehind₁, hending⟩ := hsame c' _ hbehind
    rw [← hending] at hfuture
    exact .after hrun' hending (hwords c₁' tokens rest hbehind₁ hspelled hfuture)

/-- Behind a parser that never comes to the end, only the second one has to be completed. -/
theorem andThen (htracks : ∀ y, Tracks y P may n k p p') (hp : Steady x P p)
    (hf : ∀ a, Closes x Any S n (f a) (f' a)) : Closes x P S n (p >>= f) (p' >>= f') :=
  fun c hc hP hlt hends => beyond htracks (fun a _ _ => hf a) (Nat.le_add_right n k) hc hP hlt (hp c hc hP) hends

/-- The first parser takes a token. -/
theorem andThen_taken (htracks : ∀ y, Tracks y P may (n + 1) 1 p p') (hp : Steady x P p)
    (hf : ∀ a, Closes x Any S n (f a) (f' a)) : Closes x P S (n + 1) (p >>= f) (p' >>= f') :=
  fun c hc hP hlt hends => beyond htracks (fun a _ _ => hf a) (Nat.le_refl _) hc hP hlt (hp c hc hP) hends

/-- If the first parser comes to the end, the second one takes words from the start. -/
theorem bind_add {W : List Word} (htracks : ∀ y, Tracks y P may n k p p')
    (hp : Closes x P S' n p p') (hf : ∀ a, Closes x Any S n' (f a) (f' a)) (hn : n ≤ n' + k)
    (hend : ∀ a, Takes S W (f' a)) (hleads : Leads S' W S) :
    Closes x P S n (p >>= f) (p' >>= f') := by
  intro c hc hP hlt hends
  -- either the words of `p` are followed by those of `f`, or `p` needs none
  by_cases hfirst : Ends p c
  · obtain ⟨first, hwords⟩ := hp c hc hP hlt hfirst
    refine ⟨first ++ W, fun c' tokens rest hbehind hspelled hfuture => ?_⟩
    obtain ⟨tokens₁, tokens₂, rfl, hspelled₁, hspelled₂⟩ := Shape.forall₂_append_left.mp hspelled
    rw [List.append_assoc] at hbehind
    refine (hwords c' tokens₁ _ hbehind hspelled₁ (hleads.future hspelled₂ hfuture)).bind ?_
    intro a c₁ _ hrest hending
    rw [← hending] at hfuture
    exact (hend a).completed hspelled₂ hfuture hrest
  · exact beyond htracks (fun a _ _ => hf a) hn hc hP hlt hfirst hends

/-- If the first parser comes to the end, its words are followed by words that the second one takes from
its start. -/
theorem bind {W : List Word} (htracks : ∀ y, Tracks y P may n k p p') (hp : Closes x P S' n p p')
    (hf : ∀ a, Closes x Any S n (f a) (f' a)) (hend : ∀ a, Takes S W (f' a))
    (hleads : Leads S' W S) : Closes x P S n (p >>= f) (p' >>= f') :=
  bind_add htracks hp hf (Nat.le_add_right n k) hend hleads

/-- If the first parser takes a token for sure, the second one has one token less to complete. -/
theorem bind_taken {W : List Word} (htracks : ∀ y, Tracks y P may (n + 1) 1 p p')
    (hp : Closes x P S' (n + 1) p p') (hf : ∀ a, Closes x Any S n (f a) (f' a))
    (hend : ∀ a, Takes S W (f' a)) (hleads : Leads S' W S) :
    Closes x P S (n + 1) (p >>= f) (p' >>= f') :=
  bind_add htracks hp hf (Nat.le_refl _) hend hleads

/-- Behind the second parser stands nothing of its own. -/
theorem bind_nil (htracks : ∀ y, Tracks y P may n k p p') (hp : Closes x P S n p p')
    (hf : ∀ a, Closes x Any S n (f a) (f' a)) (hend : ∀ a, Takes S [] (f' a)) :
    Closes x P S n (p >>= f) (p' >>= f') :=
  bind htracks hp hf hend fun _ => id

/-- A parser that takes a token is followed by one that needs no words of its own. -/
theorem bind_taken_nil (htracks : ∀ y, Tracks y P may (n + 1) 1 p p') (hp : Closes x P S (n + 1) p p')
    (hf : ∀ a, Closes x Any S n (f a) (f' a)) (hend : ∀ a, Takes S [] (f' a)) :
    Closes x P S (n + 1) (p >>= f) (p' >>= f') :=
  bind_taken htracks hp hf hend fun _ => id

/-- There is at least one token. -/
theorem of_le_one (hn : n ≤ 1) : Closes x P S n p p' := by
  intro c hc _ hlt
  have hpos := List.length_pos_iff.mpr hc.ne_nil
  omega

theorem none : Closes x P S 0 p p' := of_le_one (Nat.zero_le 1)

/-- A choice is completed on the side that is taken. -/
theorem ite {b : Prop} [Decidable b] {q q' : Parser α} (hp : b → Closes x P S n p p')
    (hq : ¬b → Closes x P S n q q') : Closes x P S n (if b then p else q) (if b then p' else q') := by
  split
  · exact hp ‹_›
  · exact hq ‹_›

/-- A choice whose branches go on in the same way. -/
theorem ite_bind {b : Prop} [Decidable b] {q q' : Parser α} (hp : b → Closes x P S n (p >>= f) (p' >>= f'))
    (hq : ¬b → Closes x P S n (q >>= f) (q' >>= f')) :
    Closes x P S n (if b then p >>= f else q >>= f) (if b then p' >>= f' else q' >>= f') :=
  ite hp hq

/-- A result does not come to the end, as there are tokens left. -/
theorem pure {a : α} : Closes x P S n (Pure.pure a) (Pure.pure a) :=
  of_steady fun _ hc _ => hc.ne_nil

theorem fail {t : Token} {fault : SyntaxFault} (ht : t.kind ≠ .eof) :
    Closes x P S n (Parser.fail t fault : Parser α) (Parser.fail t fault) :=
  of_steady fun _ _ _ => ht

theorem fail_bind {t : Token} {fault : SyntaxFault} (ht : t.kind ≠ .eof) :
    Closes x P S n (Parser.fail t fault >>= f) (Parser.fail t fault >>= f') :=
  of_steady fun _ _ _ => ht

/-- A token that is looked at is there. -/
theorem peek_bind {i : Nat} {f f' : Token → Parser β}
    (hi : ∀ c, x.Within c → P c.rest → i < c.rest.length)
    (hf : ∀ t, t.kind ≠ .eof → Closes x (fun l => P l ∧ l[i]? = some t) S n (f t) (f' t)) :
    Closes x P S n (peek i >>= f) (peek i >>= f') := by
  intro c hc hP hlt hends
  -- a token that is there is seen by both runs
  obtain ⟨t, ht⟩ : ∃ t, c.rest[i]? = some t := ⟨_, List.getElem?_eq_getElem (hi c hc hP)⟩
  have hpeek : ∀ c₁ : Cursor, c₁.rest[i]? = some t → (peek i).run c₁ = .ok (t, c₁) := by
    intro c₁ h
    rw [run_peek, Cursor.ahead, h]
    rfl
  unfold Ends at hends
  rw [StateT.run_bind, hpeek c ht] at hends
  obtain ⟨words, hwords⟩ := hf t (hc.kind (List.mem_of_getElem? ht)) c hc ⟨hP, ht⟩ hlt hends
  refine ⟨words, fun c' tokens rest hbehind hspelled hfuture => ?_⟩
  obtain ⟨newline, -, hrest⟩ := hbehind.rest_eq
  have ht' : c'.rest[i]? = some t := by
    rw [hrest, List.getElem?_append_left (hi c hc hP), ht]
  exact .after (hpeek c' ht') rfl (hwords c' tokens rest hbehind hspelled hfuture)

/-- The next token is looked at. -/
theorem peek_bind_zero {f f' : Token → Parser β}
    (hf : ∀ t, t.kind ≠ .eof → Closes x (fun l => P l ∧ l[0]? = some t) S n (f t) (f' t)) :
    Closes x P S n (peek >>= f) (peek >>= f') :=
  peek_bind (fun _ hc _ => List.length_pos_iff.mpr hc.ne_nil) hf

/-- Both runs get the same fresh id. -/
theorem fresh_bind {f f' : Int → Parser β} (hf : ∀ id, Closes x P S n (f id) (f' id)) :
    Closes x P S n (fresh >>= f) (fresh >>= f') := by
  have hfresh : ∀ c : Cursor, fresh.run c = .ok ((c.nextId : Int), { c with nextId := c.nextId + 1 }) :=
    fun _ => rfl
  -- ids are counted in the cursor, so the rest is run from a cursor with the same tokens and the next
  -- id
  intro c hc hP hlt hends
  unfold Ends at hends
  rw [StateT.run_bind, hfresh] at hends
  obtain ⟨words, hwords⟩ := hf _ { c with nextId := c.nextId + 1 } ⟨hc.suffix, hc.ne_nil, hc.ending_eq⟩
    hP hlt hends
  refine ⟨words, fun c' tokens rest hbehind hspelled hfuture => ?_⟩
  refine .after (hfresh c') rfl ?_
  rw [hbehind.nextId_eq]
  exact hwords { c' with nextId := c.nextId + 1 } tokens rest ⟨hbehind.rest_eq, rfl⟩ hspelled hfuture

/-- A node is made in both runs alike. -/
theorem node_bind {kind : Kind} {t : Token} {children : List Node} {f f' : Node → Parser β}
    (hf : ∀ n₁, Closes x P S n (f n₁) (f' n₁)) :
    Closes x P S n (node kind t children >>= f) (node kind t children >>= f') := by
  unfold Parser.node
  rw [bind_assoc, bind_assoc]
  exact fresh_bind fun id => hf _

theorem term_bind {t : Token} {f f' : Node → Parser β} (hf : ∀ n₁, Closes x P S n (f n₁) (f' n₁)) :
    Closes x P S n (term t >>= f) (term t >>= f') :=
  node_bind hf

theorem node {kind : Kind} {t : Token} {children : List Node} :
    Closes x P S n (node kind t children) (node kind t children) :=
  of_steady fun _ hc _ => hc.ne_nil

/-- The next token is taken. A line feed must not be, and then it is at fault. -/
theorem next_bind {f f' : Token → Parser β}
    (hf : ∀ t, t.kind ≠ .eof → t.isNewline = false → Closes x Any S n (f t) (f' t))
    (hnewline : ∀ t l, P l → l[0]? = some t → t.isNewline = true → Refuses (f t)) :
    Closes x P S (n + 1) (next >>= f) (next >>= f') := by
  intro c hc hP hlt hends
  obtain ⟨t, ht, hkind⟩ := hc.exists_head
  -- a token that is no line feed has another one behind it
  cases hline : t.isNewline with
  | true => exact absurd hends (not_ends_next_bind ht (hnewline t _ hP ht hline))
  | false =>
    obtain ⟨hc₁, hlength⟩ := hc.advanced ht hline
    unfold Ends at hends
    rw [StateT.run_bind, run_next_of_head ht] at hends
    obtain ⟨words, hwords⟩ := hf t hkind hline c.advanced hc₁ trivial (by omega) hends
    refine ⟨words, fun c' tokens rest hbehind hspelled hfuture => ?_⟩
    exact .after (run_next_of_head (hbehind.head hc ht)) rfl
      (hwords c'.advanced tokens rest (hbehind.advanced hc.ne_nil) hspelled hfuture)

/-- A keyword that is there is taken in both runs; one that is missing ends them before the end, or is
what the end of the lines lacks. -/
theorem expectKeyword_bind {word : String} {f f' : Token → Parser β}
    (hf : ∀ t, t.kind ≠ .eof → Closes x Any S n (f t) (f' t)) :
    Closes x P S (n + 1) (Parser.expectKeyword word >>= f) (Parser.expectKeyword word >>= f') := by
  unfold Parser.expectKeyword
  rw [bind_assoc, bind_assoc]
  refine next_bind (fun t ht _ => ?_) fun t _ _ _ hnewline => ?_
  · by_cases hword : t.isKeyword word = true
    · rw [if_pos hword, pure_bind, pure_bind]
      exact hf t ht
    · rw [if_neg hword]
      exact fail_bind ht
  · rw [if_neg (by simp [Token.isKeyword, kind_of_isNewline hnewline])]
    exact (refuses_fail hnewline).bind

/-- A token that is known, and is no line feed, is left out. -/
theorem skip_bind (P' : List Token → Prop) {f f' : Unit → Parser β}
    (hP : ∀ l, P l → ∃ t, l[0]? = some t ∧ t.isNewline = false ∧ P' l.tail)
    (hf : Closes x P' S n (f ()) (f' ())) : Closes x P S (n + 1) (skip >>= f) (skip >>= f') := by
  intro c hc hc' hlt hends
  obtain ⟨t, ht, hline, htail⟩ := hP _ hc'
  have hskip : ∀ c : Cursor, c.rest[0]? = some t → skip.run c = .ok ((), c.advanced) := by
    intro c ht
    rw [Parser.skip, StateT.run_bind, run_next_of_head ht]
    rfl
  obtain ⟨hc₁, hlength⟩ := hc.advanced ht hline
  unfold Ends at hends
  rw [StateT.run_bind, hskip c ht] at hends
  obtain ⟨words, hwords⟩ := hf c.advanced hc₁ htail (by omega) hends
  -- both runs leave the same token out, and the words are those of the rest
  refine ⟨words, fun c' tokens rest hbehind hspelled hfuture => ?_⟩
  exact .after (hskip c' (hbehind.head hc ht)) rfl
    (hwords c'.advanced tokens rest (hbehind.advanced hc.ne_nil) hspelled hfuture)

/-- A token is left out, be it the last line feed. -/
theorem leave_bind {W : List Word} {f f' : Unit → Parser β} (hf : Closes x Any S n (f ()) (f' ()))
    (hend : Takes S (.newline :: W) (f' ())) :
    Closes x P S (n + 1) (skip >>= f) (skip >>= f') := by
  intro c hc hP hlt hends
  obtain ⟨t, ht, -⟩ := hc.exists_head
  have hskip : ∀ c : Cursor, c.rest[0]? = some t → skip.run c = .ok ((), c.advanced) := by
    intro c ht
    rw [Parser.skip, StateT.run_bind, run_next_of_head ht]
    rfl
  -- the line feed that follows in the whole text is a word of the rest then
  by_cases hlast : c.advanced.rest = []
  · refine ⟨W, fun c' tokens rest hbehind hspelled hfuture => ?_⟩
    obtain ⟨newline, hnewline, hrest⟩ := (hbehind.advanced hc.ne_nil).rest_eq
    rw [hlast, List.nil_append] at hrest
    refine .after (hskip c' (hbehind.head hc ht)) rfl (hend.completed (.cons ?_ hspelled) hfuture hrest)
    exact ⟨kind_of_isNewline hnewline, text_of_isNewline hnewline⟩
  · have hc₁ : x.Within c.advanced := ⟨(List.tail_suffix _).trans hc.suffix, hlast, hc.ending_eq⟩
    have hlength : c.advanced.rest.length = c.rest.length - 1 := List.length_tail
    have hpos := List.length_pos_iff.mpr hc.ne_nil
    unfold Ends at hends
    rw [StateT.run_bind, hskip c ht] at hends
    obtain ⟨W', hwords⟩ := hf c.advanced hc₁ trivial (by omega) hends
    refine ⟨W', fun c' tokens rest hbehind hspelled hfuture => ?_⟩
    exact .after (hskip c' (hbehind.head hc ht)) rfl
      (hwords c'.advanced tokens rest (hbehind.advanced hc.ne_nil) hspelled hfuture)

/-- Line feeds are skipped, also the one behind the lines. -/
theorem skipNewlines : Closes x P (fun t => t.isNewline = false) n skipNewlines skipNewlines := by
  intro c hc _ _ hends
  have hnil : c.rest.dropWhile Token.isNewline = [] := hends
  refine ⟨[], fun c' tokens rest hbehind hspelled hfuture => ?_⟩
  cases hspelled
  obtain ⟨newline, hnewline, hrest⟩ := hbehind.rest_eq
  refine .inl ⟨(), _, rfl, ?_, rfl⟩
  show c'.rest.dropWhile Token.isNewline = rest
  -- all that is left are line feeds, and the one behind the lines is skipped with them
  rw [hrest, List.dropWhile_append]
  simp only [hnil, List.isEmpty_nil, List.nil_append, hnewline, List.dropWhile_cons_of_pos]
  obtain ⟨t, hahead, ht⟩ := hfuture.faces
  cases rest with
  | nil => rfl
  | cons u rest =>
    cases hahead
    simp [ht]

/-- Line feeds are passed to the end of the lines; the first word behind them must be none. -/
theorem skipNewlines_bind {w : Word} {W : List Word} (hw : w ≠ .newline) {f f' : Unit → Parser β}
    (hf : Closes x Any S n (f ()) (f' ())) (hend : Takes S (w :: W) (f' ())) :
    Closes x P S n (Parser.skipNewlines >>= f) (Parser.skipNewlines >>= f') :=
  bind (fun _ => .skipNewlines) skipNewlines (fun _ => hf) (fun _ => hend) fun _ ht =>
    Word.Says.isNewline ht hw

end Closes

/-! ## Tokens that have to be there

At the end of full lines the last token is a line feed. A parser that takes a token and rejects line
feeds therefore fails before the end, and needs no words. -/

namespace Steady

variable {P : List Token → Prop}

/-- A parser that rejects line feeds does not come to the end by taking a token. -/
theorem next_bind {f : Token → Parser β}
    (hf : ∀ t, t.kind ≠ .eof → t.isNewline = false → Steady x Any (f t))
    (hnewline : ∀ t, t.isNewline = true → Refuses (f t)) : Steady x P (next >>= f) := by
  intro c hc _ hends
  obtain ⟨t, ht, hkind⟩ := hc.exists_head
  cases hline : t.isNewline with
  | true => exact not_ends_next_bind ht (hnewline t hline) hends
  | false =>
    unfold Ends at hends
    rw [StateT.run_bind, run_next_of_head ht] at hends
    exact hf t hkind hline c.advanced (hc.advanced ht hline).1 trivial hends

/-- A choice between two such parsers is one. -/
theorem ite {b : Prop} [Decidable b] {p q : Parser α} (hp : b → Steady x P p) (hq : ¬b → Steady x P q) :
    Steady x P (if b then p else q) := by
  split
  · exact hp ‹_›
  · exact hq ‹_›

/-- A result leaves the tokens that there are, so it does not come to the end. -/
theorem pure {a : α} : Steady x P (Pure.pure a : Parser α) := fun _ hc _ => hc.ne_nil

theorem fail {t : Token} {fault : SyntaxFault} (ht : t.kind ≠ .eof) :
    Steady x P (Parser.fail t fault : Parser α) :=
  fun _ _ _ => ht

/-- A token that is expected comes before the end, if it is no line feed. -/
theorem expect {kind : TokenKind} {text : String} (htext : text ≠ "\n") :
    Steady x P (expect kind text) := by
  refine next_bind (fun t ht _ => ite (fun _ => pure) fun _ => fail ht) fun t hline => ?_
  rw [if_neg fun h => htext (h.2.symm.trans (text_of_isNewline hline))]
  exact refuses_fail hline

/-- A keyword that is expected comes before the end, since a line feed is none. -/
theorem expectKeyword {word : String} : Steady x P (expectKeyword word) := by
  refine next_bind (fun t ht _ => ite (fun _ => pure) fun _ => fail ht) fun t hline => ?_
  rw [if_neg (by simp [Token.isKeyword, kind_of_isNewline hline])]
  exact refuses_fail hline

/-- A name that is expected comes before the end, since a line feed is none. -/
theorem expectName {what : String} : Steady x P (expectName what) := by
  refine next_bind (fun t ht _ => ite (fun _ => pure) fun _ => fail ht) fun t hline => ?_
  rw [if_neg (by simp [Token.isName, kind_of_isNewline hline])]
  exact refuses_fail hline

end Steady

end Parser

end ScriptPir

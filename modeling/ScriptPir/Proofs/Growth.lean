import ScriptPir.Proofs.ExpressionParsing

/-!
# Parsing the beginning of a text

A text is parsed while more of it is yet to come. How does the parse of its beginning compare with that
of the whole? `Parser.Follows` says so of two runs of a parser, from a cursor and from one with more
tokens behind (`Prolongs`): as long as the first run looks at tokens that are there, the second does the
same, also if it has more fuel. Only when the first comes to the end of its tokens may they part. It then
fails at the end, which says nothing about the second run, or it goes on from there (`Spent`).

A cursor at the end of its tokens needs no comparison: `Parser.Lapses` says what a parser does from there.
Most fail at the end. Then the parts of a production that come after one that may stop at the end fail
too, and the production as a whole can be compared again.
-/

namespace ScriptPir

/-- The tokens of the beginning of a text and what follows them there, and the tokens that stand there in
the whole text. If the beginning ends with the end of input, a line feed comes first. -/
structure Continued where
  tokens : List Token
  ending : Except SyntaxError Token
  more : List Token
  /-- What follows the last token of the whole. -/
  last : Except SyntaxError Token
  present : ∀ t ∈ tokens, t.kind ≠ .eof
  kind_eq : ∀ e, ending = .ok e → e.kind = .eof
  text_eq : ∀ e, ending = .ok e → e.text = ""
  /-- The end of input stands right behind the last token. -/
  attached : ∀ e front t, ending = .ok e → tokens = front ++ [t] →
    e.line = t.line ∧ e.col = t.col + t.text.utf8ByteSize
  newline : ∀ e, ending = .ok e → ∃ nl rest, more = nl :: rest ∧ nl.isNewline = true

/-- Tokens up to the end of input, and more tokens behind a line feed. -/
def Continued.lines (tokens : List Token) (newline : Token) (more : List Token)
    (last : Except SyntaxError Token) (present : ∀ t ∈ tokens, t.kind ≠ .eof)
    (hnewline : newline.isNewline = true) : Continued where
  tokens := tokens
  ending := .ok (endToken tokens)
  more := newline :: more
  last := last
  present := present
  kind_eq := by
    rintro _ ⟨rfl⟩
    rfl
  text_eq := by
    rintro _ ⟨rfl⟩
    rfl
  attached := by
    rintro _ front t ⟨rfl⟩ rfl
    simp [endToken]
  newline := fun _ _ => ⟨newline, more, rfl, hnewline⟩

/-- Tokens up to an error, and what stands in its place. -/
def Continued.broken (tokens : List Token) (e : SyntaxError) (more : List Token)
    (last : Except SyntaxError Token) (present : ∀ t ∈ tokens, t.kind ≠ .eof) : Continued where
  tokens := tokens
  ending := .error e
  more := more
  last := last
  present := present
  kind_eq := fun _ h => by cases h
  text_eq := fun _ h => by cases h
  attached := fun _ _ _ h => by cases h
  newline := fun _ h => by cases h

/-- A cursor in the beginning of a text, and the same one in the whole. -/
structure Prolongs (x : Continued) (c c' : Cursor) : Prop where
  suffix : c.rest <:+ x.tokens
  ending_eq : c.ending = x.ending
  rest_eq : c'.rest = c.rest ++ x.more
  nextId_eq : c'.nextId = c.nextId
  last_eq : c'.ending = x.last

/-- A cursor at the end of its tokens. -/
structure Spent (ending : Except SyntaxError Token) (c : Cursor) : Prop where
  rest_eq : c.rest = []
  ending_eq : c.ending = ending
  kind_eq : ∀ e, ending = .ok e → e.kind = .eof
  text_eq : ∀ e, ending = .ok e → e.text = ""

/-- An error says that the tokens were at an end. -/
def SyntaxError.AtEnd (ending : Except SyntaxError Token) (e : SyntaxError) : Prop :=
  e.token.kind = .eof ∨ ending = .error e

variable {ending : Except SyntaxError Token} {x : Continued} {c c' : Cursor}

namespace Prolongs

theorem spent (h : Prolongs x c c') (hrest : c.rest = []) : Spent x.ending c :=
  ⟨hrest, h.ending_eq, x.kind_eq, x.text_eq⟩

theorem present (h : Prolongs x c c') {t : Token} (ht : t ∈ c.rest) : t.kind ≠ .eof :=
  x.present t (h.suffix.mem ht)

/-- The end of input stands right behind the last token. -/
theorem attached (h : Prolongs x c c') {e t : Token} (front : List Token) (he : x.ending = .ok e)
    (hrest : c.rest = front ++ [t]) : e.line = t.line ∧ e.col = t.col + t.text.utf8ByteSize := by
  obtain ⟨passed, hpassed⟩ := h.suffix
  exact x.attached e (passed ++ front) t he (by rw [← hpassed, hrest, List.append_assoc])

/-- Both cursors pass the same tokens, and both make the same number of nodes. -/
theorem pass {c₁ c₁' : Cursor} (h : Prolongs x c c') (hending : c₁.ending = c.ending)
    (hsuffix : c₁.rest <:+ c.rest) (hrest : c₁'.rest = c₁.rest ++ x.more)
    (hnextId : c₁'.nextId = c₁.nextId) (hlast : c₁'.ending = c'.ending) : Prolongs x c₁ c₁' :=
  ⟨hsuffix.trans h.suffix, hending.trans h.ending_eq, hrest, hnextId, hlast.trans h.last_eq⟩

/-- To advance keeps both cursors together, as long as there is a token. -/
theorem advanced (h : Prolongs x c c') (hne : c.rest ≠ []) : Prolongs x c.advanced c'.advanced := by
  refine h.pass rfl (List.tail_suffix _) ?_ h.nextId_eq rfl
  show c'.rest.tail = c.rest.tail ++ x.more
  rw [h.rest_eq, List.tail_append_of_ne_nil hne]

end Prolongs

namespace Parser

variable {α β : Type} {may : Prop}

/-! ## At the end

From the end of the beginning nothing more can be compared. Most parsers need a token there and fail;
`may` marks those that can do without, and their callers have to say what comes then. -/

/-- From the end of the tokens, a parser fails because of it, or, if it may, stays there. -/
def Lapses (ending : Except SyntaxError Token) (may : Prop) (p : Parser α) : Prop :=
  ∀ c, Spent ending c →
    match p.run c with
    | .error e => e.AtEnd ending
    | .ok (_, c') => may ∧ Spent ending c'

/-- A parser needs a token. -/
abbrev Needs (ending : Except SyntaxError Token) (p : Parser α) : Prop := Lapses ending False p

namespace Lapses

/-- A sequence lapses if its first part does, and the second one behind it. -/
theorem bind {first : Prop} {p : Parser α} {f : α → Parser β} (hp : Lapses ending first p)
    (hf : first → ∀ a, Lapses ending may (f a)) : Lapses ending may (p >>= f) := by
  intro c hc
  have h := hp c hc
  rw [StateT.run_bind]
  cases hrun : p.run c with
  | error e =>
    rw [hrun] at h
    exact h
  | ok r =>
    rw [hrun] at h
    exact hf h.1 r.1 r.2 h.2

/-- What comes after a parser that needs a token does not matter. -/
theorem needs_bind {p : Parser α} {f : α → Parser β} (hp : Needs ending p) :
    Lapses ending may (p >>= f) :=
  bind hp False.elim

/-- A parser that fails at the end lapses whether it may stay there or not. -/
theorem mono {p : Parser α} (hp : Needs ending p) : Lapses ending may p := by
  intro c hc
  have h := hp c hc
  cases hrun : p.run c with
  | error e =>
    rw [hrun] at h
    exact h
  | ok r =>
    rw [hrun] at h
    exact h.1.elim

theorem pure {a : α} : Lapses ending True (Pure.pure a : Parser α) := fun _ hc => ⟨trivial, hc⟩

/-- A failure at the end of input is one at the end. -/
theorem fail {t : Token} {fault : SyntaxFault} (ht : t.kind = .eof) :
    Lapses ending may (Parser.fail t fault : Parser α) :=
  fun _ _ => .inl ht

/-- A choice lapses if both sides do. -/
theorem ite {b : Prop} [Decidable b] {p q : Parser α} (hp : b → Lapses ending may p)
    (hq : ¬b → Lapses ending may q) : Lapses ending may (if b then p else q) := by
  split
  · exact hp ‹_›
  · exact hq ‹_›

/-- The token that is looked at is the end of input, or what stands in its place ends the parse. -/
theorem peek_bind {i : Nat} {f : Token → Parser β}
    (hf : ∀ e, e.kind = .eof → e.text = "" → Lapses ending may (f e)) :
    Lapses ending may (peek i >>= f) := by
  intro c hc
  rw [StateT.run_bind, run_peek]
  have hahead : c.ahead i = ending := by simp [Cursor.ahead, hc.rest_eq, hc.ending_eq]
  rw [hahead]
  cases hending : ending with
  | error e => exact .inr rfl
  | ok e => rw [hending] at hc hf; exact hf e (hc.kind_eq e rfl) (hc.text_eq e rfl) c hc

/-- At the end, the next token is the end of input. -/
theorem next_bind {f : Token → Parser β}
    (hf : ∀ e, e.kind = .eof → e.text = "" → Lapses ending may (f e)) :
    Lapses ending may (next >>= f) := by
  have hnext : (next >>= f) = peek >>= fun t => (modify fun c => { c with rest := c.rest.tail }) >>=
      fun _ => f t := by
    rw [next, bind_assoc]
    rfl
  rw [hnext]
  refine peek_bind fun e hkind htext c hc => ?_
  have hrest : c.rest.tail = [] := by
    rw [hc.rest_eq]
    rfl
  exact hf e hkind htext _ ⟨hrest, hc.ending_eq, hc.kind_eq, hc.text_eq⟩

/-- To take the end of input stays at the end. -/
theorem next : Lapses ending True next := by
  have h : Lapses ending True (Parser.next >>= Pure.pure) := next_bind fun _ _ _ => pure
  rwa [bind_pure] at h

/-- To skip the end of input stays at the end. -/
theorem skip : Lapses ending True skip := next.bind fun _ _ => pure

/-- There are no line feeds to skip at the end. -/
theorem skipNewlines : Lapses ending True skipNewlines := by
  intro c hc
  refine ⟨trivial, ?_, hc.ending_eq, hc.kind_eq, hc.text_eq⟩
  show c.rest.dropWhile Token.isNewline = []
  rw [hc.rest_eq]
  rfl

theorem fresh : Lapses ending True fresh :=
  fun _ hc => ⟨trivial, hc.rest_eq, hc.ending_eq, hc.kind_eq, hc.text_eq⟩

theorem node {kind : Kind} {t : Token} {children : List Node} :
    Lapses ending True (node kind t children) :=
  fresh.bind fun _ _ => pure

/-- The node of a token is made at the end as well. -/
theorem term {t : Token} : Lapses ending True (term t) := node

theorem expectKeyword {word : String} : Needs ending (expectKeyword word) := by
  refine next_bind fun e hkind _ => ite (fun h => ?_) fun _ => fail hkind
  simp [Token.isKeyword, hkind] at h

/-- A token that is expected is missing at the end, since it is not the end of input. -/
theorem expect {kind : TokenKind} {text : String} (hkind : kind ≠ .eof) :
    Needs ending (expect kind text) := by
  refine next_bind fun e he _ => ite (fun h => ?_) fun _ => fail he
  exact absurd (h.1.symm.trans he) hkind

theorem expectName {what : String} : Needs ending (expectName what) := by
  refine next_bind fun e hkind _ => ite (fun h => ?_) fun _ => fail hkind
  simp [Token.isName, hkind] at h

/-- The bound on the depth is reported at the end, too. -/
theorem tooDeep : Needs ending (do Parser.fail (← Parser.peek) .tooDeep : Parser α) :=
  peek_bind fun _ hkind _ => fail hkind

end Lapses

/-! ## The same steps

`Tracks` adds to `Follows` what a loop needs: a bound on the tokens, which the fuel of both runs is
above, and how many tokens are taken at least. `P` is what is known of the tokens ahead, as after a
look at them. -/

/-- A run of a parser and one with more tokens behind do the same, unless the first comes to the end of
its tokens: then it fails because of it, or, if it may, it goes on from there. -/
def Follows (x : Continued) (may : Prop) (p p' : Parser α) (c c' : Cursor) (Q : Cursor → Prop) :
    Prop :=
  match p.run c with
  | .error e => e.AtEnd x.ending ∨ p'.run c' = .error e
  | .ok (a, c₁) =>
    (∃ c₁', p'.run c' = .ok (a, c₁') ∧ Prolongs x c₁ c₁' ∧ Q c₁) ∨ (may ∧ Spent x.ending c₁)

/-- What is known of the cursor afterwards can be weakened. -/
theorem Follows.mono {p p' : Parser α} {Q R : Cursor → Prop}
    (h : Follows x may p p' c c' Q) (hle : ∀ c, Q c → R c) :
    Follows x may p p' c c' R := by
  unfold Follows at h ⊢
  split
  · rename_i e heq
    rw [heq] at h
    exact h
  · rename_i a c₁ heq
    rw [heq] at h
    refine h.imp_left ?_
    rintro ⟨c₁', hrun, hprolongs, hQ⟩
    exact ⟨c₁', hrun, hprolongs, hle c₁ hQ⟩

/-- From the end, a parser that lapses is followed by any other one. -/
theorem follows_of_lapses {p : Parser α} (p' : Parser α) (c' : Cursor) {Q : Cursor → Prop}
    (h : Lapses x.ending may p) (hc : Spent x.ending c) : Follows x may p p' c c' Q := by
  have hrun := h c hc
  unfold Follows
  split
  · rename_i e heq
    rw [heq] at hrun
    exact .inl hrun
  · rename_i a c₁ heq
    rw [heq] at hrun
    exact .inr hrun

theorem follows_pure {a : α} {Q : Cursor → Prop} (h : Prolongs x c c') (hQ : Q c) :
    Follows x may (pure a) (pure a) c c' Q :=
  .inl ⟨c', rfl, h, hQ⟩

/-- A sequence follows step by step; where its first part may stop at the end, the second one lapses. -/
theorem follows_bind {first : Prop} {p p' : Parser α} {f f' : α → Parser β} {Q R : Cursor → Prop}
    (hp : Follows x first p p' c c' Q)
    (hf : ∀ a c₁ c₁', Prolongs x c₁ c₁' → Q c₁ → Follows x may (f a) (f' a) c₁ c₁' R)
    (hend : first → ∀ a, Lapses x.ending may (f a)) :
    Follows x may (p >>= f) (p' >>= f') c c' R := by
  unfold Follows at hp ⊢
  rw [StateT.run_bind, StateT.run_bind]
  cases hrun : p.run c with
  | error e =>
    rw [hrun] at hp
    rcases hp with hend | hsame
    -- the first part failed, at the end or in both runs
    · exact .inl hend
    · exact .inr (by rw [hsame]; rfl)
  | ok r =>
    rw [hrun] at hp
    -- both runs came to the same place, or the first is at its end
    rcases hp with ⟨c₁', hsame, hprolongs, hQ⟩ | ⟨hfirst, hspent⟩
    · rw [hsame]
      exact hf r.1 r.2 c₁' hprolongs hQ
    · exact follows_of_lapses (p' >>= f') c' (hend hfirst r.1) hspent

/-- From tokens that satisfy `P` and are fewer than `n`, two parsers follow each other and take at least
`k` tokens. -/
def Tracks (x : Continued) (P : List Token → Prop) (may : Prop) (n k : Nat) (p p' : Parser α) :
    Prop :=
  ∀ c c', Prolongs x c c' → P c.rest → c.rest.length < n →
    Follows x may p p' c c' fun c₁ => c₁.rest.length + k ≤ c.rest.length

/-- Any tokens. -/
def Any : List Token → Prop := fun _ => True

namespace Tracks

variable {P : List Token → Prop} {n n' k k' : Nat} {p p' : Parser α} {f f' : α → Parser β}

theorem pure {a : α} : Tracks x P may n 0 (Pure.pure a) (Pure.pure a) :=
  fun _ _ h _ _ => follows_pure h (Nat.le_refl _)

theorem fail {t : Token} {fault : SyntaxFault} :
    Tracks x P may n k (Parser.fail t fault : Parser α) (Parser.fail t fault) :=
  fun _ _ _ _ _ => .inr rfl

/-- No list is shorter than nothing. -/
theorem none : Tracks x P may 0 k p p' := fun _ _ _ _ hlt => absurd hlt (Nat.not_lt_zero _)

/-- The assumptions may be strengthened, the bound lowered and the tokens taken forgotten. -/
theorem mono {Q : List Token → Prop} {first : Prop} (h : Tracks x Q first n' k' p p')
    (hPQ : ∀ l, P l → Q l) (hmay : first → may) (hn : n ≤ n') (hk : k ≤ k') :
    Tracks x P may n k p p' := by
  intro c c' hprolongs hP hlt
  have hfollows := h c c' hprolongs (hPQ _ hP) (by omega)
  unfold Follows at hfollows ⊢
  split
  · rename_i e heq
    rw [heq] at hfollows
    exact hfollows
  · rename_i a c₁ heq
    rw [heq] at hfollows
    refine hfollows.imp ?_ fun ⟨hfirst, hspent⟩ => ⟨hmay hfirst, hspent⟩
    rintro ⟨c₁', hrun, hprolongs₁, hle⟩
    exact ⟨c₁', hrun, hprolongs₁, by omega⟩

/-- What is known of two parsers in sequence adds up; the other rules for sequences are cases of this
one. -/
theorem bind_add {first : Prop} {m K : Nat} (hp : Tracks x P first n k p p')
    (hf : ∀ a, Tracks x Any may n' m (f a) (f' a))
    (hend : first → ∀ a, Lapses x.ending may (f a)) (hn : n ≤ n' + k) (hK : K ≤ k + m) :
    Tracks x P may n K (p >>= f) (p' >>= f') := by
  intro c c' hprolongs hP hlt
  refine follows_bind (hp c c' hprolongs hP hlt) (fun a c₁ c₁' hprolongs₁ hle => ?_) hend
  exact (hf a c₁ c₁' hprolongs₁ trivial (by omega)).mono fun c₂ hle₂ => by omega

/-- A parser that need not take a token leaves the bound to the next one. -/
theorem bind {first : Prop} (hp : Tracks x P first n 0 p p')
    (hf : ∀ a, Tracks x Any may n k (f a) (f' a))
    (hend : first → ∀ a, Lapses x.ending may (f a)) :
    Tracks x P may n k (p >>= f) (p' >>= f') :=
  bind_add hp hf hend (Nat.le_refl _) (by omega)

/-- What comes after a parser that takes a token has fewer tokens left. -/
theorem bind_taken {first : Prop} (hp : Tracks x P first (n + 1) 1 p p')
    (hf : ∀ a, Tracks x Any may n 0 (f a) (f' a))
    (hend : first → ∀ a, Lapses x.ending may (f a)) :
    Tracks x P may (n + 1) 1 (p >>= f) (p' >>= f') :=
  bind_add hp hf hend (Nat.le_refl _) (Nat.le_refl _)

/-- What comes after a parser that stops before the end. -/
theorem andThen (hp : Tracks x P False n 0 p p')
    (hf : ∀ a, Tracks x Any may n k (f a) (f' a)) :
    Tracks x P may n k (p >>= f) (p' >>= f') :=
  bind hp hf False.elim

/-- That a token is taken need not be told. -/
theorem weak (h : Tracks x P may n 1 p p') : Tracks x P may n 0 p p' :=
  h.mono (fun _ => id) id (Nat.le_refl _) (Nat.zero_le _)

/-- What stops before the end may do so, whatever else may be done. -/
theorem lax (h : Tracks x P False n k p p') : Tracks x P may n k p p' :=
  h.mono (fun _ => id) False.elim (Nat.le_refl _) (Nat.le_refl _)

theorem any (h : Tracks x Any may n k p p') : Tracks x P may n k p p' :=
  h.mono (fun _ _ => trivial) id (Nat.le_refl _) (Nat.le_refl _)

theorem weaken (h : Tracks x P may n' k p p') (hn : n ≤ n') :
    Tracks x P may n k p p' :=
  h.mono (fun _ => id) id hn (Nat.le_refl _)

/-- A choice is followed on the side that is taken. -/
theorem ite {b : Prop} [Decidable b] {q q' : Parser α} (hp : b → Tracks x P may n k p p')
    (hq : ¬b → Tracks x P may n k q q') :
    Tracks x P may n k (if b then p else q) (if b then p' else q') := by
  split
  · exact hp ‹_›
  · exact hq ‹_›

/-- A token that is looked at is the same, or it is the end of input and a line feed. -/
theorem peek_bind {i : Nat} {f f' : Token → Parser β} (hi : ∀ l, P l → i ≤ l.length)
    (hf : ∀ t, t.kind ≠ .eof →
      Tracks x (fun l => P l ∧ l[i]? = some t) may n k (f t) (f' t))
    (hend : ∀ e nl, e.kind = .eof → e.text = "" → nl.isNewline = true → x.ending = .ok e →
      Tracks x (fun l => P l ∧ l.length = i) may n k (f e) (f' nl)) :
    Tracks x P may n k (peek i >>= f) (peek i >>= f') := by
  intro c c' hprolongs hP hlt
  have hahead : c'.ahead i = (c.rest ++ x.more)[i]?.elim c'.ending .ok := by
    unfold Cursor.ahead
    rw [hprolongs.rest_eq]
    cases (c.rest ++ x.more)[i]? <;> rfl
  unfold Follows
  rw [StateT.run_bind, StateT.run_bind, run_peek, run_peek, hahead]
  cases htoken : c.rest[i]? with
  | some t =>
    have hshort : c.ahead i = .ok t := by rw [Cursor.ahead, htoken]
    have hlong : (c.rest ++ x.more)[i]? = some t := by
      rw [List.getElem?_append_left (List.getElem?_eq_some_iff.mp htoken).1, htoken]
    rw [hshort, hlong]
    -- the token is there, and both runs see it
    exact hf t (hprolongs.present (List.mem_of_getElem? htoken)) c c' hprolongs ⟨hP, htoken⟩ hlt
  | none =>
    have hlength : c.rest.length = i :=
      Nat.le_antisymm (List.getElem?_eq_none_iff.mp htoken) (hi _ hP)
    have hshort : c.ahead i = x.ending := by rw [Cursor.ahead, htoken, hprolongs.ending_eq]
    rw [hshort]
    cases hending : x.ending with
    | error e => exact .inl (.inr rfl)
    | ok e =>
      obtain ⟨nl, rest, hmore, hnl⟩ := x.newline e hending
      have hlong : (c.rest ++ x.more)[i]? = some nl := by
        rw [← hlength, hmore]
        simp
      rw [hlong]
      have hfollows := hend e nl (x.kind_eq e hending) (x.text_eq e hending) hnl hending c c' hprolongs
        ⟨hP, hlength⟩ hlt
      unfold Follows at hfollows
      rw [hending] at hfollows
      exact hfollows

/-- The next token is taken, if there is one. -/
theorem next_bind {f f' : Token → Parser β}
    (hf : ∀ t, t.kind ≠ .eof → Tracks x Any may n 0 (f t) (f' t))
    (hend : ∀ e, e.kind = .eof → e.text = "" → Lapses x.ending may (f e)) :
    Tracks x P may (n + 1) 1 (next >>= f) (next >>= f') := by
  intro c c' hprolongs hP hlt
  -- at the end of the tokens that are known nothing is claimed but that the parser may lapse
  by_cases hne : c.rest = []
  · exact follows_of_lapses _ _ (Lapses.next_bind hend) (hprolongs.spent hne)
  obtain ⟨t, rest, hrest⟩ := List.exists_cons_of_ne_nil hne
  have hshort : next.run c = .ok (t, c.advanced) := run_next (by simp [Cursor.ahead, hrest])
  have hlong : next.run c' = .ok (t, c'.advanced) :=
    run_next (by simp [Cursor.ahead, hprolongs.rest_eq, hrest])
  have hpresent := hprolongs.present (t := t) (by rw [hrest]; exact List.mem_cons_self)
  -- one token was taken, which is what the bound on the length pays for
  have hlength : c.rest.length = c.advanced.rest.length + 1 := by
    show _ = c.rest.tail.length + 1
    rw [hrest]
    rfl
  have hfollows := (hf t hpresent c.advanced c'.advanced (hprolongs.advanced hne) trivial (by omega)).mono
    (R := fun c₁ => c₁.rest.length + 1 ≤ c.rest.length) fun c₁ hle => by omega
  unfold Follows at hfollows ⊢
  rw [StateT.run_bind, StateT.run_bind, hshort, hlong]
  exact hfollows

/-- It need not be told that the next token is taken. -/
theorem next_bind_weak {f f' : Token → Parser β}
    (hf : ∀ t, t.kind ≠ .eof → Tracks x Any may n 0 (f t) (f' t))
    (hend : ∀ e, e.kind = .eof → e.text = "" → Lapses x.ending may (f e)) :
    Tracks x P may n 0 (Parser.next >>= f) (Parser.next >>= f') :=
  ((next_bind hf hend).weaken (Nat.le_succ n)).weak

/-- The next token is the same, unless there is none. -/
theorem next : Tracks x P True n 1 next next := by
  have h : Tracks x P True (n + 1) 1 (Parser.next >>= Pure.pure) (Parser.next >>= Pure.pure) :=
    next_bind (fun _ _ => pure) fun _ _ _ => .pure
  rw [bind_pure] at h
  exact h.weaken (Nat.le_succ n)

/-- A token that is left out may be the end of input. -/
theorem skip : Tracks x P True n 1 skip skip :=
  (next.bind_taken (fun _ => pure) fun _ _ => .pure).weaken (Nat.le_succ n)

/-- A token that is known to be there can be left out. -/
theorem skip_of_ne (hP : ∀ l, P l → l ≠ []) : Tracks x P False n 1 Parser.skip Parser.skip := by
  intro c c' hprolongs hc hlt
  obtain ⟨t, rest, hrest⟩ := List.exists_cons_of_ne_nil (hP _ hc)
  have hshort : Parser.skip.run c = .ok ((), c.advanced) := run_skip (t := t) (by simp [Cursor.ahead, hrest])
  have hlong : Parser.skip.run c' = .ok ((), c'.advanced) :=
    run_skip (t := t) (by simp [Cursor.ahead, hprolongs.rest_eq, hrest])
  unfold Follows
  rw [hshort]
  refine .inl ⟨_, hlong, hprolongs.advanced (hP _ hc), ?_⟩
  show c.rest.tail.length + 1 ≤ c.rest.length
  rw [hrest]
  exact Nat.le_refl _

/-- Line feeds are skipped in both runs; at the end of the beginning the second run may skip more. -/
theorem skipNewlines : Tracks x P True n 0 skipNewlines skipNewlines := by
  intro c c' hprolongs _ _
  have hsuffix : c.rest.dropWhile Token.isNewline <:+ c.rest := List.dropWhile_suffix _
  by_cases hnil : c.rest.dropWhile Token.isNewline = []
  · exact .inr ⟨trivial, hnil, hprolongs.ending_eq, x.kind_eq, x.text_eq⟩
  · refine .inl ⟨_, rfl, hprolongs.pass rfl hsuffix ?_ hprolongs.nextId_eq rfl, hsuffix.length_le⟩
    show c'.rest.dropWhile Token.isNewline = c.rest.dropWhile Token.isNewline ++ x.more
    rw [hprolongs.rest_eq, List.dropWhile_append]
    simp [hnil]

/-- Both runs count the same ids. -/
theorem fresh : Tracks x P False n 0 fresh fresh := by
  intro c c' hprolongs _ _
  have hlong : Parser.fresh.run c' = .ok ((c.nextId : Int), { c' with nextId := c.nextId + 1 }) := by
    rw [← hprolongs.nextId_eq]
    rfl
  exact .inl ⟨_, hlong, hprolongs.pass rfl (List.suffix_refl _) hprolongs.rest_eq rfl rfl, Nat.le_refl _⟩

theorem node {kind : Kind} {t : Token} {children : List Node} :
    Tracks x P False n 0 (node kind t children) (node kind t children) :=
  fresh.andThen fun _ => pure

theorem term {t : Token} : Tracks x P False n 0 (term t) (term t) := node

/-- A token that is expected is found in both runs, or it is missing at the end. -/
theorem expect {kind : TokenKind} {text : String} (hkind : kind ≠ .eof) :
    Tracks x P False n 1 (expect kind text) (expect kind text) := by
  refine (next_bind (fun t _ => ite (fun _ => pure) fun _ => fail) fun e he _ => ?_).weaken (Nat.le_succ n)
  exact .ite (fun h => absurd (h.1.symm.trans he) hkind) fun _ => .fail he

/-- A keyword is found in both runs, or it is missing at the end. -/
theorem expectKeyword {word : String} :
    Tracks x P False n 1 (expectKeyword word) (expectKeyword word) := by
  refine (next_bind (fun t _ => ite (fun _ => pure) fun _ => fail) fun e he _ => ?_).weaken (Nat.le_succ n)
  exact .ite (fun h => by simp [Token.isKeyword, he] at h) fun _ => .fail he

/-- A name is found in both runs, or it is missing at the end. -/
theorem expectName {what : String} :
    Tracks x P False n 1 (expectName what) (expectName what) := by
  refine (next_bind (fun t _ => ite (fun _ => pure) fun _ => fail) fun e he _ => ?_).weaken (Nat.le_succ n)
  exact .ite (fun h => by simp [Token.isName, he] at h) fun _ => .fail he

theorem fail_bind {t : Token} {fault : SyntaxFault} :
    Tracks x P may n k (Parser.fail t fault >>= f) (Parser.fail t fault >>= f') :=
  fun _ _ _ _ _ => .inr rfl

/-- A choice whose branches go on in the same way. -/
theorem ite_bind {b : Prop} [Decidable b] {q q' : Parser α}
    (hp : b → Tracks x P may n k (p >>= f) (p' >>= f'))
    (hq : ¬b → Tracks x P may n k (q >>= f) (q' >>= f')) :
    Tracks x P may n k (if b then p >>= f else q >>= f)
      (if b then p' >>= f' else q' >>= f') :=
  ite hp hq

/-- The first token need only be compared if there is one. -/
theorem peek_bind_of_lapses {f f' : Token → Parser β} (hend : Lapses x.ending may (peek >>= f))
    (hf : ∀ t, t.kind ≠ .eof →
      Tracks x (fun l => P l ∧ l[0]? = some t) may n k (f t) (f' t)) :
    Tracks x P may n k (peek >>= f) (peek >>= f') := by
  intro c c' hprolongs hP hlt
  by_cases hne : c.rest = []
  · exact follows_of_lapses _ _ hend (hprolongs.spent hne)
  · refine peek_bind (P := fun l => P l ∧ l ≠ []) (fun l _ => Nat.zero_le _) (fun t ht => ?_)
      (fun e nl _ _ _ _ => ?_) c c' hprolongs ⟨hP, hne⟩ hlt
    · exact (hf t ht).mono (fun l h => ⟨h.1.1, h.2⟩) id (Nat.le_refl _) (Nat.le_refl _)
    · rintro c c' _ ⟨⟨-, hne⟩, hlength⟩ _
      exact absurd (List.length_eq_zero_iff.mp hlength) hne

end Tracks

/-! ## Expressions

First what each production needs at the end, then that both runs follow each other, in the order in
which the productions call each other. -/

theorem isName_of_eof {e : Token} (he : e.kind = .eof) : e.isName = false := by
  simp [Token.isName, he]

/-- A line feed is written as a semicolon is. -/
theorem kind_of_isNewline {t : Token} (h : t.isNewline = true) : t.kind = .semi := by
  simp only [Token.isNewline, Bool.and_eq_true, decide_eq_true_eq] at h
  exact h.1

section Expressions

variable {expr expr' : Parser Node} (hneeds : Needs ending expr)

include hneeds

/-- Arguments need a token. -/
theorem needs_arguments (bracketed : Bool) (fuel : Nat) :
    Needs ending (arguments expr bracketed fuel) := by
  cases fuel with
  | zero => exact .tooDeep
  | succ fuel =>
    rw [arguments_succ]
    refine .peek_bind fun e he _ => ?_
    have hnamed : isNamed e = Pure.pure false := by rw [isNamed, isName_of_eof he]; rfl
    rw [hnamed, pure_bind]
    exact .needs_bind hneeds.needs_bind

theorem needs_args (fuel : Nat) (t : Token) (bracketed : Bool) :
    Needs ending (args expr fuel t bracketed) :=
  Lapses.fresh.bind fun _ _ => (needs_arguments hneeds bracketed fuel).needs_bind

omit hneeds in
/-- A primary needs a token. -/
theorem needs_primary (fuel : Nat) : Needs ending (primary expr fuel) := by
  refine .next_bind fun e he _ => ?_
  rw [he]
  exact .fail he

end Expressions

/-- An operand with signs needs a token. -/
theorem needs_unary {operand : Parser Node} (h : Needs ending operand) (fuel : Nat) :
    Needs ending (unary operand fuel) := by
  cases fuel with
  | zero => exact .tooDeep
  | succ fuel =>
    refine .peek_bind fun e he _ => .ite (fun hsign => ?_) fun _ => h
    simp [isSign, Token.isOp, Token.isKeyword, he] at hsign

/-- A binary expression needs a token. -/
theorem needs_binary (fuel limit : Nat) : Needs ending (binary fuel limit) := by
  cases fuel with
  | zero => exact .tooDeep
  | succ fuel => exact (needs_unary (needs_primary _) _).needs_bind

/-- Whether an argument has a name is seen alike, if its first token is there. -/
theorem tracks_isNamed {P : List Token → Prop} {n : Nat} (t : Token) :
    Tracks x (fun l => P l ∧ l[0]? = some t) False n 0 (isNamed t) (isNamed t) := by
  unfold isNamed
  refine .ite (fun _ => ?_) fun _ => .pure
  rw [map_eq_pure_bind]
  refine .peek_bind (fun l hl => ?_) (fun _ _ => .pure) fun e nl he _ hnl _ => ?_
  · exact (List.getElem?_eq_some_iff.mp hl.2).1
  · have hcolon : e.isOp ":" = nl.isOp ":" := by
      simp [Token.isOp, he, kind_of_isNewline hnl]
    rw [hcolon]
    exact .pure

/-- A separator is taken alike; at the end, more line feeds may follow. -/
theorem tracks_separator {P : List Token → Prop} {n : Nat} (bracketed : Bool) :
    Tracks x P True n 1 (separator bracketed) (separator bracketed) := by
  refine .weaken (.bind_taken .skip (fun _ => ?_) fun _ _ => ?_) (Nat.le_succ n)
  · exact .ite (fun _ => .skipNewlines) fun _ => .pure
  · exact .ite (fun _ => .skipNewlines) fun _ => .pure

section Expressions

variable {expr expr' : Parser Node} {N : Nat} (hneeds : Needs x.ending expr)
  (hexpr : Tracks x Any False N 1 expr expr')

include hneeds hexpr

/-- An argument is read alike. -/
theorem tracks_argument (t : Token) (named : Bool) :
    Tracks x Any False N 1 (argument expr t named) (argument expr' t named) := by
  have hvalue : ∀ children : Node → List Node, Tracks x Any False N 1
      (do let value ← expr; node .arg t (children value))
      (do let value ← expr'; node .arg t (children value)) := by
    intro children
    cases N with
    | zero => exact .none
    | succ n => exact hexpr.bind_taken (fun _ => .node) False.elim
  refine .ite (fun _ => ?_) fun _ => hvalue fun value => [value]
  refine .bind (.weak .skip) (fun _ => .bind (.weak .skip) (fun _ => .andThen .term fun name => ?_) ?_) ?_
  · exact hvalue fun value => [name, value]
  · exact fun _ _ => .bind .term fun _ _ => hneeds.needs_bind
  · exact fun _ _ => .bind .skip fun _ _ => .bind .term fun _ _ => hneeds.needs_bind

/-- Arguments are read alike, by induction on the fuel. -/
theorem tracks_arguments (bracketed : Bool) {fuel fuel' : Nat} (hle : fuel ≤ fuel') (hN : N ≤ fuel) :
    Tracks x Any False N 1 (arguments expr bracketed fuel)
      (arguments expr' bracketed fuel') := by
  -- on the fuel of the first run; `N` goes down with it, as each argument takes a token
  induction fuel generalizing fuel' N with
  | zero =>
    obtain rfl := Nat.le_zero.mp hN
    exact .none
  | succ fuel ih =>
    cases N with
    | zero => exact .none
    | succ n =>
      obtain ⟨fuel', rfl⟩ : ∃ m, fuel' = m + 1 := ⟨fuel' - 1, by omega⟩
      have hrest : Tracks x Any False n 1 (arguments expr bracketed fuel)
          (arguments expr' bracketed fuel') :=
        ih (hexpr.weaken (Nat.le_succ n)) (by omega) (by omega)
      have hend := needs_arguments hneeds bracketed (fuel + 1)
      rw [arguments_succ] at hend
      rw [arguments_succ, arguments_succ]
      refine .peek_bind_of_lapses hend fun t _ => .andThen (tracks_isNamed t) fun named => ?_
      refine .bind_taken (tracks_argument hneeds hexpr t named) (fun arg => ?_) False.elim
      refine .peek_bind (fun _ _ => Nat.zero_le _) (fun after _ => .ite (fun _ => .pure) fun _ => ?_) ?_
      · refine .bind (.weak (tracks_separator bracketed)) (fun _ => .andThen hrest.weak fun _ => .pure) ?_
        exact fun _ _ => (needs_arguments hneeds bracketed fuel).needs_bind
      · -- neither the end of input nor a line feed is a comma
        intro e nl he _ hnl _
        rw [if_pos (by rw [he]; decide), if_pos (by rw [kind_of_isNewline hnl]; decide)]
        exact .pure

theorem tracks_args {fuel fuel' : Nat} (hle : fuel ≤ fuel') (hN : N ≤ fuel) (t : Token)
    (bracketed : Bool) :
    Tracks x Any False N 0 (args expr fuel t bracketed) (args expr' fuel' t bracketed) :=
  .andThen .fresh fun _ => .andThen (tracks_arguments hneeds hexpr bracketed hle hN).weak fun _ => .pure

/-- A call is read alike. -/
theorem tracks_call {P : List Token → Prop} {fuel fuel' : Nat} (hle : fuel ≤ fuel') (hN : N ≤ fuel)
    (name : Token) :
    Tracks x P False N 0 (call expr fuel name) (call expr' fuel' name) := by
  have hclose : ∀ (Q : List Token → Prop) (args : Node), Tracks x Q False N 0
      (do
        skipNewlines
        let _ ← Parser.expect .closing ")"
        let callee ← term name
        node .call name [callee, args])
      (do
        skipNewlines
        let _ ← Parser.expect .closing ")"
        let callee ← term name
        node .call name [callee, args]) := by
    intro Q args
    refine .bind .skipNewlines (fun _ => .andThen (.weak (.expect (by decide))) fun _ => ?_) fun _ _ => ?_
    · exact .andThen .term fun _ => .node
    · exact (Lapses.expect (by decide)).needs_bind
  -- a call whose parenthesis is the last token needs more, whatever it would be
  have hend : Needs x.ending (do
      let t ← Parser.peek
      let args ← if t.kind = .closing then node .args t [] else args expr fuel t true
      skipNewlines
      let _ ← Parser.expect .closing ")"
      let callee ← term name
      node .call name [callee, args]) := by
    refine .peek_bind fun e he _ => ?_
    rw [if_neg (by rw [he]; decide)]
    exact (needs_args hneeds fuel e true).needs_bind
  refine .andThen (.weak (.expect (by decide))) fun _ => ?_
  refine .bind .skipNewlines (fun _ => .peek_bind_of_lapses hend fun t _ => ?_) fun _ _ => hend
  refine .ite_bind (fun _ => .andThen .node (hclose _)) fun _ => ?_
  exact .andThen (tracks_args hneeds hexpr hle hN t true).any (hclose _)

/-- An index is read alike. -/
theorem tracks_index {P : List Token → Prop} (name : Token) :
    Tracks x P False N 0 (index expr name) (index expr' name) := by
  refine .andThen .term fun leaf => .andThen .node fun array => ?_
  refine .andThen (.weak (.expect (by decide))) fun opening => ?_
  refine .bind .skipNewlines (fun _ => .andThen hexpr.weak fun e => ?_) fun _ _ => hneeds.needs_bind
  cases e.nonIntegral? with
  | some bad => exact .fail_bind
  | none =>
    refine .bind .skipNewlines (fun _ => ?_) fun _ _ => (Lapses.expect (by decide)).needs_bind
    refine .andThen (.weak (.expect (by decide))) fun closing => ?_
    exact .andThen .term fun _ => .andThen .term fun _ => .node

/-- A primary is read alike. -/
theorem tracks_primary {fuel fuel' : Nat} (hle : fuel ≤ fuel') (hN : N ≤ fuel) :
    Tracks x Any False (N + 1) 1 (primary expr fuel) (primary expr' fuel') := by
  -- three sorts of tokens are taken alone
  have hsingle : ∀ (P : List Token → Prop) (kind : Kind) (t : Token), Tracks x P False N 0
      (do node kind t [← term t] : Parser Node) (do node kind t [← term t]) :=
    fun P kind t => .andThen .term fun _ => .node
  refine .next_bind (fun t _ => ?_) fun e he _ => by rw [he]; exact .fail he
  cases hkind : t.kind with
  | int | float | string =>
    cases literal t with
    | error e => exact .fail_bind
    | ok v => exact hsingle _ _ t
  | global => exact hsingle _ _ t
  | opening =>
    refine .ite (fun _ => .fail_bind) fun _ => ?_
    refine .bind .skipNewlines (fun _ => .andThen hexpr.weak fun e => ?_) fun _ _ => hneeds.needs_bind
    refine .bind .skipNewlines (fun _ => ?_) fun _ _ => (Lapses.expect (by decide)).needs_bind
    refine .andThen (.weak (.expect (by decide))) fun closing => ?_
    exact .andThen .term fun _ => .andThen .term fun _ => .node
  | ident =>
    refine .ite (fun _ => hsingle _ _ t) fun _ => .ite (fun _ => .fail) fun _ => ?_
    refine .peek_bind (fun _ _ => Nat.zero_le _) (fun ahead _ => ?_) fun e nl he _ hnl _ => ?_
    · exact .ite (fun _ => tracks_call hneeds hexpr hle hN t) fun _ =>
        .ite (fun _ => tracks_index hneeds hexpr t) fun _ => hsingle _ _ t
    · -- neither the end of input nor a line feed is a bracket
      have hround : e.isOpening "(" = false ∧ nl.isOpening "(" = false ∧ e.isOpening "[" = false ∧
          nl.isOpening "[" = false := by
        simp [Token.isOpening, he, kind_of_isNewline hnl]
      rw [hround.1, hround.2.1, hround.2.2.1, hround.2.2.2]
      exact hsingle _ _ t
  | _ => exact .fail

end Expressions

/-- An operand with signs is read alike, by induction on the fuel. -/
theorem tracks_unary {operand operand' : Parser Node} {n : Nat} (hneeds : Needs x.ending operand)
    (h : Tracks x Any False n 1 operand operand') {fuel fuel' : Nat} (hle : fuel ≤ fuel')
    (hn : n ≤ fuel) : Tracks x Any False n 1 (unary operand fuel) (unary operand' fuel') := by
  -- on the fuel, which bounds the number of signs
  induction fuel generalizing fuel' n with
  | zero =>
    obtain rfl := Nat.le_zero.mp hn
    exact .none
  | succ fuel ih =>
    cases n with
    | zero => exact .none
    | succ n =>
      obtain ⟨fuel', rfl⟩ : ∃ m, fuel' = m + 1 := ⟨fuel' - 1, by omega⟩
      have hrest : Tracks x Any False n 1 (unary operand fuel) (unary operand' fuel') :=
        ih (h.weaken (Nat.le_succ n)) (by omega) (by omega)
      refine .peek_bind_of_lapses (needs_unary hneeds (fuel + 1)) fun t _ => .ite (fun _ => ?_) fun _ => ?_
      · refine .bind_taken .skip (fun _ => ?_) fun _ _ => .bind .term fun _ _ =>
          (needs_unary hneeds fuel).needs_bind
        exact .andThen .term fun _ => .andThen hrest.weak fun _ => .node
      · exact h.any

/-- A token that is neither an operator nor a word stands for no operator. -/
theorem ofToken?_of_kind {t : Token} (hop : t.kind ≠ .op) (hident : t.kind ≠ .ident) :
    Operator.ofToken? t = none := by
  simp [Operator.ofToken?, hop, hident]

/-- The climb over operators is the same, and at the end of the tokens neither run finds one. -/
theorem tracks_climb {right right' : Nat → Parser Node} {n : Nat}
    (hneeds : ∀ limit, Needs x.ending (right limit))
    (h : ∀ limit, Tracks x Any False n 1 (right limit) (right' limit)) (limit : Nat)
    {fuel fuel' : Nat} (hle : fuel ≤ fuel') (hn : n ≤ fuel) (left : Node) :
    Tracks x Any False n 0 (climb right limit fuel left) (climb right' limit fuel' left) := by
  -- on the fuel, for any left operand: each operator takes a token and leaves a new one
  induction fuel generalizing fuel' n left with
  | zero =>
    obtain rfl := Nat.le_zero.mp hn
    exact .none
  | succ fuel ih =>
    cases n with
    | zero => exact .none
    | succ n =>
      obtain ⟨fuel', rfl⟩ : ∃ m, fuel' = m + 1 := ⟨fuel' - 1, by omega⟩
      refine .peek_bind (fun _ _ => Nat.zero_le _) (fun t _ => ?_) fun e nl he _ hnl _ => ?_
      · cases Operator.ofToken? t with
        | none => exact .pure
        | some op =>
          refine .ite (fun _ => .pure) fun _ => .weak (.bind_taken .skip (fun _ => ?_) ?_)
          · refine .bind .skipNewlines (fun _ => ?_) fun _ _ => (hneeds _).needs_bind
            refine .andThen ((h _).weaken (Nat.le_succ n)).weak fun r => .andThen .term fun opTerm => ?_
            exact .andThen .node fun whole =>
              ih (fun limit => (h limit).weaken (Nat.le_succ n)) (by omega) (by omega) whole
          · exact fun _ _ => .bind .skipNewlines fun _ _ => (hneeds _).needs_bind
      · rw [ofToken?_of_kind (t := e) (by rw [he]; decide) (by rw [he]; decide),
          ofToken?_of_kind (t := nl) (by rw [kind_of_isNewline hnl]; decide)
            (by rw [kind_of_isNewline hnl]; decide)]
        exact .pure

/-- A binary expression is read alike, by induction on the fuel. -/
theorem tracks_binary {fuel fuel' : Nat} (hle : fuel ≤ fuel') (limit : Nat) :
    Tracks x Any False fuel 1 (binary fuel limit) (binary fuel' limit) := by
  -- an operand is parsed with less fuel, so that both runs agree on it by induction
  induction fuel generalizing fuel' limit with
  | zero => exact .none
  | succ fuel ih =>
    obtain ⟨fuel', rfl⟩ : ∃ m, fuel' = m + 1 := ⟨fuel' - 1, by omega⟩
    have hbinary : ∀ limit, Tracks x Any False fuel 1 (binary fuel limit) (binary fuel' limit) :=
      fun limit => ih (by omega) limit
    have hprimary : Tracks x Any False (fuel + 1) 1
        (primary (binary fuel Operator.loosest) (fuel + 1))
        (primary (binary fuel' Operator.loosest) (fuel' + 1)) :=
      tracks_primary (needs_binary fuel _) (hbinary _) hle (Nat.le_succ fuel)
    refine .bind_taken (tracks_unary (needs_primary _) hprimary hle (Nat.le_refl _)) (fun left => ?_)
      False.elim
    exact tracks_climb (fun _ => needs_binary fuel _) hbinary limit hle (Nat.le_succ fuel) left

end Parser

end ScriptPir

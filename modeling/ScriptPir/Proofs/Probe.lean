import ScriptPir.Compile
import ScriptPir.Proofs.ReadFailure
import ScriptPir.Proofs.Spelling
import ScriptPir.Proofs.StatementCompletion

/-!
# Whether more input helps

A session goes on to read lines as long as `isIncomplete` says that more of them may help. How far is
that right?

* A text that does not parse and is not said to be incomplete is beyond repair: the error stays whatever
  comes behind a line feed (`parse_error_stays`). The exception is a line feed that is not read as a token,
  because it continues a line behind a backslash or ends the last line of a block comment (`Vanishes`). The
  text up to a backslash is wrong for the end of input, and right for a line feed.
* A text that is said to be incomplete can be completed if the line feed behind it is read as a token and
  does not turn it into a text beyond repair (`exists_completion`), unless a constant stands in an index
  that is no integer.
-/

namespace ScriptPir

open Lexer
open Glyph (lineFeed)

/-- A source is a program. -/
def Parses (src : Source) : Prop := ∃ root, parse src = .ok root

instance (src : Source) : Decidable (Parses src) :=
  match h : parse src with
  | .ok root => isTrue ⟨root, h⟩
  | .error _ => isFalse fun ⟨root, hroot⟩ => by rw [h] at hroot; cases hroot

/-- Some text behind a line feed makes a program of a text. -/
def Repairable (s : List Glyph) : Prop := ∃ more, Parses ⟨s ++ lineFeed :: more, .eof⟩

/-! ## Line feeds behind a text

What a line feed does to the text in front of it is one of four things, told by how far that text was
read (`goes_on`). The names of the four are used below. -/

/-- The line feed behind a text is no token: the text goes on in the next line. -/
structure Vanishes (s : List Glyph) : Prop where
  openEnded : OpenEnded (lex ⟨s, .eof⟩)
  joins : ∃ pos, ∀ more, lex ⟨s ++ lineFeed :: more, .eof⟩ =
    ⟨(lex ⟨s, .eof⟩).lexemes ++ (lexFrom .eof more pos).lexemes, (lexFrom .eof more pos).bad⟩

/-- A text is read to its end, and then the line feed behind it. -/
structure ReadsLineFeed (s : List Glyph) : Prop where
  finished : (lex ⟨s, .eof⟩).bad = none
  newline : ∃ newline pos, newline.isNewline = true ∧ ∀ more, lex ⟨s ++ lineFeed :: more, .eof⟩ =
    ⟨(lex ⟨s, .eof⟩).lexemes ++ .token newline :: (lexFrom .eof more pos).lexemes,
      (lexFrom .eof more pos).bad⟩

/-- Reading stops in a text, whatever comes behind. -/
structure StopsIn (s : List Glyph) (b : BadLexeme) : Prop where
  bad_eq : (lex ⟨s, .eof⟩).bad = some b
  same : ∀ more, lex ⟨s ++ lineFeed :: more, .eof⟩ = lex ⟨s, .eof⟩

/-- A text ends within a string, a block comment or inlined code. -/
structure Unclosed (s : List Glyph) (b : BadLexeme) : Prop where
  bad_eq : (lex ⟨s, .eof⟩).bad = some b
  unterminated : b.fault = .unterminated
  reads : ∀ more, ∃ l : Lexed,
    lex ⟨s ++ lineFeed :: more, .eof⟩ = ⟨(lex ⟨s, .eof⟩).lexemes ++ l.lexemes, l.bad⟩

/-- The ways in which a text goes on behind a line feed. -/
theorem goes_on (s : List Glyph) :
    ReadsLineFeed s ∨ Vanishes s ∨ (∃ b, StopsIn s b) ∨ ∃ b, Unclosed s b := by
  have hcarries := carries_lexFrom s {}
  generalize hshort : lexFrom .eof s {} = l at hcarries
  generalize hlong : (fun more => lexFrom .eof (s ++ lineFeed :: more) {}) = l' at hcarries
  replace hshort : lex ⟨s, .eof⟩ = l := hshort
  replace hlong : ∀ more, lex ⟨s ++ lineFeed :: more, .eof⟩ = l' more := fun more => congrFun hlong more
  -- one way for each way of reading on
  cases hcarries with
  | line lexemes t pos ht =>
    refine .inl ⟨by rw [hshort], t, pos, ht, fun more => ?_⟩
    rw [hlong, hshort]
  | joint lexemes bad hopen pos =>
    refine .inr (.inl ⟨by rw [hshort]; exact hopen, pos, fun more => ?_⟩)
    rw [hlong, hshort]
  | same lexemes b =>
    refine .inr (.inr (.inl ⟨b, by rw [hshort], fun more => ?_⟩))
    rw [hlong, hshort]
  | cut lexemes b hb r =>
    refine .inr (.inr (.inr ⟨b, by rw [hshort], hb, fun more => ⟨r more, ?_⟩⟩))
    rw [hlong, hshort]

/-- A text and its line feed are read to their end, and then what stands behind them. -/
theorem ReadsLineFeed.lines {s : List Glyph} (h : ReadsLineFeed s) :
    (∃ front newline, newline.isNewline = true ∧
      lex ⟨s ++ [lineFeed], .eof⟩ = ⟨front ++ [.token newline], none⟩) ∧
    ∃ pos, ∀ more, lex ⟨s ++ lineFeed :: more, .eof⟩ =
      ⟨(lex ⟨s ++ [lineFeed], .eof⟩).lexemes ++ (lexFrom .eof more pos).lexemes,
        (lexFrom .eof more pos).bad⟩ := by
  obtain ⟨-, newline, pos, hnewline, hlong⟩ := h
  have hlines := hlong []
  rw [lexFrom_of_finished rfl] at hlines
  refine ⟨⟨_, newline, hnewline, hlines⟩, pos, fun more => ?_⟩
  rw [hlong more, hlines, List.append_assoc]
  rfl

/-- The line feed behind a text is read if the text is read to its end and that is no comment. -/
theorem readsLineFeed {s : List Glyph} (h : (lex ⟨s, .eof⟩).bad = none)
    (hlast : ∀ l ∈ (lex ⟨s, .eof⟩).lexemes.getLast?, l.kind ≠ .comment) : ReadsLineFeed s := by
  obtain hreads | ⟨hopen, -⟩ | ⟨b, hbad, -⟩ | ⟨b, hbad, -⟩ := goes_on s
  · exact hreads
  · -- what is open at its end ends with a comment
    generalize lex ⟨s, .eof⟩ = l at h hlast hopen
    cases hopen with
    | comment lexemes body pos => exact absurd rfl (hlast (.comment body pos) List.getLast?_concat)
    | backslash lexemes pos => cases h
  · rw [h] at hbad
    cases hbad
  · rw [h] at hbad
    cases hbad

/-! ## Errors that stay

An error is final if the parser has not looked at the end of input. Behind a line feed that is read
as a token there may be more tokens, but none of them is in the place of one that the error depends
on. -/

/-- An error at a token in front of a line feed stays, whatever stands behind that. -/
theorem parseFrom_before_line {xs ys : List Lexeme} {newline : Token} {bad : Option BadLexeme}
    {e : SyntaxError} (hpresent : ∀ t ∈ Lexed.tokens ⟨xs, none⟩, t.kind ≠ .eof)
    (h : parseFrom (.start ⟨xs, none⟩) = .error e) (he : e.token.kind ≠ .eof)
    (hnewline : newline.isNewline = true) :
    parseFrom (.start ⟨xs ++ .token newline :: ys, bad⟩) = .error e := by
  have hprolongs : Prolongs (.lines _ newline (Lexed.tokens ⟨ys, none⟩) _ hpresent hnewline)
      (.start ⟨xs, none⟩) (.start ⟨xs ++ .token newline :: ys, bad⟩) :=
    ⟨List.suffix_refl _, rfl, List.filterMap_append, rfl, rfl⟩
  exact parseFrom_of_prolongs hprolongs h fun hend => hend.elim he fun hending => by cases hending

/-- An error in front of bad text stays, whatever stands in the place of that. -/
theorem parseFrom_before_bad {xs ys : List Lexeme} {b : BadLexeme} {bad : Option BadLexeme}
    {e : SyntaxError} (hpresent : ∀ t ∈ Lexed.tokens ⟨xs, some b⟩, t.kind ≠ .eof)
    (h : parseFrom (.start ⟨xs, some b⟩) = .error e) (he : e.token.kind ≠ .eof)
    (hb : Lexed.ending ⟨xs, some b⟩ ≠ .error e) :
    parseFrom (.start ⟨xs ++ ys, bad⟩) = .error e := by
  have hprolongs : Prolongs (.broken (Lexed.tokens ⟨xs, some b⟩) _ (Lexed.tokens ⟨ys, bad⟩) _ hpresent)
      (.start ⟨xs, some b⟩) (.start ⟨xs ++ ys, bad⟩) :=
    ⟨List.suffix_refl _, rfl, List.filterMap_append, rfl, rfl⟩
  exact parseFrom_of_prolongs hprolongs h fun hend => hend.elim he hb

/-- An error that is not said to be a matter of more input stays, whatever comes behind the line feed. -/
theorem parse_error_stays {s : List Glyph} (hs : ¬Vanishes s) {e : SyntaxError}
    (h : parse ⟨s, .eof⟩ = .error e) (he : e.incomplete = false) (more : List Glyph) :
    parse ⟨s ++ lineFeed :: more, .eof⟩ = .error e := by
  obtain ⟨hkind, hfault⟩ : e.token.kind ≠ .eof ∧ e.fault ≠ .lexical .unterminated := by
    simpa [SyntaxError.incomplete] using he
  have hpresent : ∀ t ∈ (lex ⟨s, .eof⟩).tokens, t.kind ≠ .eof :=
    fun t ht => (proper_of_mem_tokens _ ht).2
  -- the error is in front of what the line feed changes, in each way of going on
  obtain ⟨hbad, newline, pos, hnewline, hlong⟩ | hvanishes | ⟨b, -, hsame⟩ | ⟨b, hbad, hb, hreads⟩ := goes_on s
  · have hshort : lex ⟨s, .eof⟩ = ⟨(lex ⟨s, .eof⟩).lexemes, none⟩ := by rw [← hbad]
    rw [hshort] at hpresent
    rw [parse, hshort] at h
    rw [parse, hlong more]
    exact parseFrom_before_line hpresent h hkind hnewline
  · exact absurd hvanishes hs
  · rw [parse, hsame more]
    exact h
  · obtain ⟨l, hlong⟩ := hreads more
    have hshort : lex ⟨s, .eof⟩ = ⟨(lex ⟨s, .eof⟩).lexemes, some b⟩ := by rw [← hbad]
    rw [hshort] at hpresent
    rw [parse, hshort] at h
    rw [parse, hlong]
    refine parseFrom_before_bad hpresent h hkind fun hending => hfault ?_
    cases hending
    rw [hb]

/-- An error that is found before anything behind the line feed is looked at stays, too. The text behind it is
bad here, so that looking at it is an error of its own. -/
theorem parse_error_before {s : List Glyph} (hs : ReadsLineFeed s) {b : BadLexeme} {e : SyntaxError}
    (h : parseFrom (.start ⟨(lex ⟨s ++ [lineFeed], .eof⟩).lexemes, some b⟩) = .error e)
    (he : e.token.kind ≠ .eof) (hb : e.fault ≠ .lexical b.fault) (more : List Glyph) :
    parse ⟨s ++ lineFeed :: more, .eof⟩ = .error e := by
  obtain ⟨pos, hlong⟩ := hs.lines.2
  have hpresent : ∀ t ∈ Lexed.tokens ⟨(lex ⟨s ++ [lineFeed], .eof⟩).lexemes, some b⟩, t.kind ≠ .eof :=
    fun t ht => (proper_of_mem_tokens ⟨s ++ [lineFeed], .eof⟩ ht).2
  rw [parse, hlong more]
  refine parseFrom_before_bad hpresent h he fun hending => hb ?_
  cases hending
  rfl

/-- An error remains one when the result is forgotten. -/
theorem error_of_map {r : Except SyntaxError Node} {e : SyntaxError}
    (h : r.map (fun _ => ()) = .error e) : r = .error e := by
  cases r with
  | ok => cases h
  | error => cases h; rfl

/-- A line feed cannot stand behind the equals sign of `$x =`, so that nothing completes it, although it ends
in the middle of a construct. -/
theorem not_repairable_global :
    let s := Glyph.ofString "$x ="
    isIncomplete ⟨s, .eof⟩ = true ∧ ¬Repairable s := by
  refine ⟨by decide +kernel, ?_⟩
  rintro ⟨more, root, hroot⟩
  have hreads : ReadsLineFeed (Glyph.ofString "$x =") := readsLineFeed (by decide +kernel) (by decide +kernel)
  have hstays := parse_error_before hreads (b := ⟨[], {}, .unterminated⟩) (e := ⟨⟨.semi, "\n", 1, 5⟩, .expression⟩)
    (error_of_map (by decide +kernel)) (by decide) (by decide) more
  rw [hroot] at hstays
  cases hstays

/-! ## Completions

What the parser still expects at the end of a text is known as a list of words. The words are written
down, read back by the lexer, and found to complete the program. -/

namespace Word

/-- A word as it is written. -/
def spelling (w : Word) : Spelling where
  kind := w.kind
  text := w.text
  spelled := by
    cases w with
    | one => exact .int (by decide) fun _ h => absurd h List.not_mem_nil
    | name => exact .ident (by decide) fun _ h => absurd h List.not_mem_nil
    | stop =>
      exact .ident (by decide) (List.forall_mem_cons.mpr ⟨by decide, List.forall_mem_singleton.mpr (by decide)⟩)
    | round => exact .closing (.inl rfl)
    | square => exact .closing (.inr rfl)
    | semicolon => exact .semi (.inl rfl)
    | newline => exact .semi (.inr rfl)
    | equals => exact .op (by decide)

end Word

/-- Words written with one space between neighbours. -/
def Word.written (words : List Word) : List Glyph := Glyph.ofString (Spelling.line (words.map Word.spelling))

/-- Words that are written down are read as such. -/
theorem exists_spelled (words : List Word) (pos : Position) : ∃ tokens : List Token,
    lexFrom .eof (Word.written words) pos = ⟨tokens.map .token, none⟩ ∧ Spelled words tokens := by
  obtain ⟨tokens, hlex, htokens⟩ := undoes_line (words.map Word.spelling) pos
  refine ⟨tokens, hlex, ?_⟩
  have hpairs : List.Forall₂ (· = ·) (words.map fun w => (w.kind, w.text))
      (tokens.map fun t => (t.kind, t.text)) := by
    rw [List.forall₂_eq_eq_eq, htokens, List.map_map]
    rfl
  rw [List.forall₂_map_left_iff, List.forall₂_map_right_iff] at hpairs
  exact hpairs.imp fun w t h => ⟨(congrArg Prod.fst h).symm, (congrArg Prod.snd h).symm⟩

/-- A source that is read to its end is parsed from its tokens, with the end of input behind them. -/
theorem start_of_finished {l : Lexed} (h : l.bad = none) :
    Cursor.start l = ⟨l.tokens, .ok (endToken l.tokens), 0⟩ := by
  rw [Cursor.start, Lexed.ending, h]

/-- A source that is said to be incomplete has an error that says so. -/
theorem error_of_isIncomplete {src : Source} (h : isIncomplete src = true) :
    ∃ e, parse src = .error e ∧ e.incomplete = true := by
  unfold isIncomplete at h
  cases hparse : parse src with
  | ok root => rw [hparse] at h; cases h
  | error e => rw [hparse] at h; exact ⟨e, rfl, h⟩

/-- Text that is read to its end gives an incomplete error only at the end. -/
theorem kind_of_incomplete {src : Source} {e : SyntaxError} (h : parse src = .error e)
    (hbad : (lex src).bad = none) (he : e.incomplete = true) : e.token.kind = .eof := by
  have hending : (lex src).ending = .ok (endToken (lex src).tokens) := by rw [Lexed.ending, hbad]
  obtain ⟨-, hlexical⟩ | hlast := token_of_parse_error h
  · rw [SyntaxError.incomplete, Bool.or_eq_true, decide_eq_true_eq, decide_eq_true_eq] at he
    refine he.resolve_right fun hfault => ?_
    rw [hfault] at hlexical
    cases hlexical
  · rw [hending] at hlast
    cases hlast

/-- A text up to its line feed is made of full lines. -/
def ReadsLineFeed.fullLines {s : List Glyph} (h : ReadsLineFeed s) : FullLines where
  tokens := (lex ⟨s ++ [lineFeed], .eof⟩).tokens
  closed := by
    obtain ⟨front, newline, hnewline, hlines⟩ := h.lines.1
    exact ⟨_, newline, by rw [hlines]; exact List.filterMap_append, hnewline⟩
  present := fun t ht => (proper_of_mem_tokens _ ht).2

/-- Words behind full lines complete the program, or a constant of the lines in an index is no integer. -/
theorem exists_completion {s : List Glyph} (hs : ReadsLineFeed s)
    (h : isIncomplete ⟨s ++ [lineFeed], .eof⟩ = true) :
    Repairable s ∨ ∃ more e what, parse ⟨s ++ lineFeed :: more, .eof⟩ = .error e ∧
      e.fault = .indexLiteral what ∧ e.token ∈ (lex ⟨s ++ [lineFeed], .eof⟩).tokens := by
  have hfinished : (lex ⟨s ++ [lineFeed], .eof⟩).bad = none := by
    obtain ⟨front, newline, -, hlines⟩ := hs.lines.1
    rw [hlines]
  obtain ⟨e, herror, he⟩ := error_of_isIncomplete h
  have hstart : parseFrom ⟨hs.fullLines.tokens, .ok (endToken hs.fullLines.tokens), 0⟩ = .error e := by
    rw [parse, start_of_finished hfinished] at herror
    exact herror
  obtain ⟨words, hwords⟩ := parseFrom_completed _ hstart (kind_of_incomplete herror hfinished he)
  obtain ⟨pos, hlong⟩ := hs.lines.2
  -- the words are written in a line of their own
  obtain ⟨tokens, hlex, hspelled⟩ := exists_spelled (.newline :: words) pos
  have hmore := hlong (Word.written (.newline :: words))
  rw [hlex] at hmore
  have hparse : parse ⟨s ++ lineFeed :: Word.written (.newline :: words), .eof⟩ =
      parseFrom ⟨hs.fullLines.tokens ++ tokens, .ok (endToken (hs.fullLines.tokens ++ tokens)), 0⟩ := by
    have htokens : Lexed.tokens ⟨(lex ⟨s ++ [lineFeed], .eof⟩).lexemes ++ tokens.map .token, none⟩ =
        hs.fullLines.tokens ++ tokens := by
      show _ = (lex ⟨s ++ [lineFeed], .eof⟩).tokens ++ _
      simp [Lexed.tokens]
    rw [parse, hmore, start_of_finished rfl, htokens]
  cases hspelled with
  | @cons _ next _ rest hsays hrest =>
    have hnext : next.isNewline = true := by
      rw [Token.isNewline, hsays.1, hsays.2]
      decide
    rcases hwords next rest hnext hrest with ⟨root, hroot⟩ | ⟨e', what, herror', hfault, hmem⟩
    · exact .inl ⟨_, root, hparse.trans hroot⟩
    · exact .inr ⟨_, e', what, hparse.trans herror', hfault, hmem⟩

/-! ## The probe -/

/-- How far `isIncomplete` tells whether more input helps. A text that fails and is not said to be incomplete is
beyond repair, unless the line feed behind it vanishes. One that is said to be incomplete is no program. If its
line feed is read, the next line decides: it may be completed if it is a program with the line feed or still
incomplete, but for a constant in an index, and it is beyond repair if it fails before anything behind the line
feed is looked at. -/
theorem isIncomplete_continuations (s : List Glyph) :
    (isIncomplete ⟨s, .eof⟩ = false → ¬Vanishes s → ∀ e, parse ⟨s, .eof⟩ = .error e →
      ∀ more, parse ⟨s ++ lineFeed :: more, .eof⟩ = .error e) ∧
    (isIncomplete ⟨s, .eof⟩ = true → ¬Parses ⟨s, .eof⟩) ∧
    (ReadsLineFeed s →
      (isIncomplete ⟨s ++ [lineFeed], .eof⟩ = true ∨ Parses ⟨s ++ [lineFeed], .eof⟩ →
        Repairable s ∨ ∃ more e what, parse ⟨s ++ lineFeed :: more, .eof⟩ = .error e ∧
          e.fault = .indexLiteral what ∧ e.token ∈ (lex ⟨s ++ [lineFeed], .eof⟩).tokens) ∧
      ∀ b e, parseFrom (.start ⟨(lex ⟨s ++ [lineFeed], .eof⟩).lexemes, some b⟩) = .error e →
        e.token.kind ≠ .eof → e.fault ≠ .lexical b.fault →
        ∀ more, parse ⟨s ++ lineFeed :: more, .eof⟩ = .error e) := by
  refine ⟨fun hincomplete hvanishes e herror => ?_, fun hincomplete => ?_, fun hreads => ⟨?_, ?_⟩⟩
  · refine parse_error_stays hvanishes herror ?_
    simpa [isIncomplete, herror] using hincomplete
  · rintro ⟨root, hroot⟩
    simp [isIncomplete, hroot] at hincomplete
  · rintro (hnext | hparses)
    · exact exists_completion hreads hnext
    · exact .inl ⟨[], hparses⟩
  · exact fun b e herror he hb more => parse_error_before hreads herror he hb more

/-- `x = (1` is completed behind its line feed. -/
theorem isIncomplete_continuations_bracket :
    let s := Glyph.ofString "x = (1"
    isIncomplete ⟨s, .eof⟩ = true ∧ ReadsLineFeed s ∧ isIncomplete ⟨s ++ [lineFeed], .eof⟩ = true ∧
      (Repairable s ∨ ∃ more e what, parse ⟨s ++ lineFeed :: more, .eof⟩ = .error e ∧
        e.fault = .indexLiteral what ∧ e.token ∈ (lex ⟨s ++ [lineFeed], .eof⟩).tokens) := by
  have hreads : ReadsLineFeed (Glyph.ofString "x = (1") := readsLineFeed (by decide +kernel) (by decide +kernel)
  have hnext : isIncomplete ⟨Glyph.ofString "x = (1" ++ [lineFeed], .eof⟩ = true := by decide +kernel
  exact ⟨by decide +kernel, hreads, hnext, ((isIncomplete_continuations _).2.2 hreads).1 (.inl hnext)⟩

/-- The backslash of `x = 1 \` is an error that more input fixes, but it is not said to be so: behind a line
feed it continues the line. -/
theorem not_incomplete_backslash :
    let s := Glyph.ofString "x = 1 \\"
    ¬Parses ⟨s, .eof⟩ ∧ Repairable s ∧ isIncomplete ⟨s, .eof⟩ = false := by
  refine ⟨by decide +kernel, ⟨[], ?_⟩, by decide +kernel⟩
  decide +kernel

end ScriptPir

import ScriptPir.Proofs.Provenance

/-!
# Sources that cannot be read to their end

Reading a source may fail at any point: between two lexemes, inside one, or where the lexer looks ahead.
Main statement: `read_failure_final`. Whatever was read before, the last thing that is sent on is bad text,
and the parse fails. So the part of a program that was read is never taken for the whole.

* `Scan.Proceeds` says what one step of the lexer may do when reading is going to fail: it finds a lexeme,
  passes a line continuation or stops at bad text, but it never finishes (`proceeds_scan`).
* A statement list that no keyword stops only ends where it sees the end of input
  (`Parser.draws_endless`), which does not stand behind the tokens of such a source.
-/

namespace ScriptPir

/-- The kind under which a lexeme is sent on. -/
def Lexeme.kind : Lexeme → TokenKind
  | token t => t.kind
  | comment .. => .comment

/-- The kinds of everything that is sent on, in order. Bad text comes last, if at all. -/
def Lexed.kinds (l : Lexed) : List TokenKind :=
  l.lexemes.map Lexeme.kind ++ (l.bad.map fun _ => TokenKind.bad).toList

/-- Neither the kind of bad text nor that of the end of input. -/
def TokenKind.IsProper (kind : TokenKind) : Prop := kind ≠ .bad ∧ kind ≠ .eof

instance (kind : TokenKind) : Decidable kind.IsProper :=
  inferInstanceAs (Decidable (_ ∧ _))

namespace Lexer

theorem proper_tokenAt {kind : TokenKind} (h : kind.IsProper) (pos : Position) (text : String) :
    (tokenAt pos kind text).kind.IsProper := h

theorem proper_comment (body : List Glyph) (pos : Position) :
    (Lexeme.comment body pos).kind.IsProper := ⟨nofun, nofun⟩

/-! ## One step

Reading that fails is seen by a step as an ending other than the end of input. A step that looks at
its ending finds out there; a step that does not, finds its lexeme as always. -/

/-- A step finds a proper lexeme, or passes or stops; it finishes only if the source is read to its
end. -/
structure Scan.Proceeds (ending : Ending) (r : Scan) : Prop where
  proper : ∀ l rest next, r = .found l rest next → l.kind.IsProper
  finished : r = .finished → ending = .eof

variable {ending : Ending}

/-- A step that finds a proper lexeme proceeds. -/
theorem proceeds_found {l : Lexeme} (h : l.kind.IsProper) (rest : List Glyph) (next : Position) :
    (Scan.found l rest next).Proceeds ending := by
  refine ⟨?_, nofun⟩
  rintro _ _ _ ⟨rfl, rfl, rfl⟩
  exact h

theorem proceeds_bad (b : BadLexeme) : (Scan.bad b).Proceeds ending := ⟨fun _ _ _ => nofun, nofun⟩

theorem proceeds_skipped (rest : List Glyph) (next : Position) :
    (Scan.skipped rest next).Proceeds ending := ⟨fun _ _ _ => nofun, nofun⟩

/-- A step that needs the text behind its lexeme proceeds: it finds the lexeme or stops. -/
theorem proceeds_settle {l : Lexeme} (h : l.kind.IsProper) (pos : Position) (rest : List Glyph)
    (next : Position) : (settle ending pos l rest next).Proceeds ending := by
  unfold settle
  split
  · exact proceeds_bad _
  · exact proceeds_found h _ _

/-- A choice proceeds if both branches do. -/
theorem proceeds_ite {b : Prop} [Decidable b] {r s : Scan} (hr : r.Proceeds ending)
    (hs : s.Proceeds ending) : (if b then r else s).Proceeds ending := by
  split
  · exact hr
  · exact hs

theorem proceeds_scanRun {kind : TokenKind} (h : kind.IsProper) (pos : Position) (p : Char → Bool)
    (g : Glyph) (s : List Glyph) : (scanRun ending pos kind p g s).Proceeds ending :=
  proceeds_settle (proper_tokenAt h _ _) _ _ _

/-- A global proceeds. -/
theorem proceeds_scanGlobal (pos : Position) (s : List Glyph) :
    (scanGlobal ending pos s).Proceeds ending := by
  unfold scanGlobal
  split
  · exact proceeds_bad _
  · exact proceeds_scanRun (by decide) _ _ _ _

/-- An operator proceeds. -/
theorem proceeds_scanOp (pos : Position) (c : Char) (s : List Glyph) :
    (scanOp pos c s).Proceeds ending := by
  unfold scanOp
  simp only
  split
  · exact proceeds_found (proper_tokenAt (by decide) _ _) _ _
  · exact proceeds_bad _

/-- A comment in brackets proceeds. -/
theorem proceeds_scanBlockComment (pos : Position) (g : Glyph) (s : List Glyph) :
    (scanBlockComment ending pos g s).Proceeds ending := by
  unfold scanBlockComment
  split
  · exact proceeds_bad _
  · simp only
    split
    · exact proceeds_ite (proceeds_found (proper_comment _ _) _ _) (proceeds_settle (proper_comment _ _) _ _ _)
    · exact proceeds_settle (proper_comment _ _) _ _ _

/-- Inline code proceeds. -/
theorem proceeds_scanPir (pos : Position) (s : List Glyph) :
    (scanPir ending pos s).Proceeds ending := by
  unfold scanPir
  split
  · exact proceeds_bad _
  · exact proceeds_found (proper_tokenAt (by decide) _ _) _ _

/-- A string proceeds. -/
theorem proceeds_scanString (pos : Position) (mark : Char) (s : List Glyph) :
    (scanString ending pos mark s).Proceeds ending := by
  unfold scanString
  split
  · exact proceeds_bad _
  · exact proceeds_found (proper_tokenAt (by decide) _ _) _ _

theorem proceeds_scanExponent (pos : Position) (mantissa : String) (s : List Glyph) :
    (scanExponent ending pos mantissa s).Proceeds ending :=
  proceeds_ite (proceeds_bad _) (proceeds_settle (proper_tokenAt (by decide) _ _) _ _ _)

/-- A mantissa proceeds. -/
theorem proceeds_scanMantissa {kind : TokenKind} (h : kind.IsProper) (pos : Position) (text : String)
    (s : List Glyph) : (scanMantissa ending pos kind text s).Proceeds ending := by
  unfold scanMantissa
  split
  · exact proceeds_ite (proceeds_scanExponent _ _ _)
      (proceeds_found (proper_tokenAt h _ _) _ _)
  · exact proceeds_settle (proper_tokenAt h _ _) _ _ _

/-- A number proceeds. -/
theorem proceeds_scanNumber (pos : Position) (g : Glyph) (s : List Glyph) :
    (scanNumber ending pos g s).Proceeds ending := by
  have hint : ∀ text, (tokenAt pos .int text).kind.IsProper := proper_tokenAt (by decide) pos
  have hhex : ∀ s, (scanHex ending pos s).Proceeds ending := fun s =>
    proceeds_ite (proceeds_bad _) (proceeds_settle (hint _) _ _ _)
  unfold scanNumber
  simp only
  split
  · exact proceeds_settle (hint _) _ _ _
  · refine proceeds_ite (proceeds_ite (hhex _) (proceeds_bad _)) (proceeds_ite ?_ ?_)
    · -- a point without a digit behind it is left to the next step
      exact proceeds_ite (proceeds_found (hint _) _ _) (proceeds_scanMantissa (by decide) _ _ _)
    · exact proceeds_scanMantissa (by decide) _ _ _

/-- Whatever the first character leads to, the step proceeds. -/
theorem proceeds_scanLexeme (pos : Position) (g : Glyph) (s : List Glyph) :
    (scanLexeme ending pos g s).Proceeds ending := by
  have hsingle : ∀ {kind : TokenKind} (c : Char), kind.IsProper → (single pos kind c s).Proceeds ending :=
    fun c h => proceeds_found (proper_tokenAt h _ _) _ _
  unfold scanLexeme
  refine proceeds_ite (hsingle _ (by decide)) (proceeds_ite (proceeds_skipped _ _) ?_)
  refine proceeds_ite (proceeds_scanBlockComment _ _ _) ?_
  refine proceeds_ite (proceeds_scanRun (by decide) _ _ _ _) ?_
  refine proceeds_ite (proceeds_scanGlobal _ _) (proceeds_ite (proceeds_scanPir _ _) ?_)
  refine proceeds_ite (proceeds_scanOp _ _ _) (proceeds_ite (hsingle _ (by decide)) ?_)
  refine proceeds_ite (hsingle _ (by decide)) (proceeds_ite (hsingle _ (by decide)) ?_)
  refine proceeds_ite (proceeds_scanNumber _ _ _) (proceeds_ite (proceeds_scanString _ _ _) ?_)
  exact proceeds_ite (proceeds_settle (proper_comment _ _) _ _ _) (proceeds_bad _)

/-- Behind the blanks there is a lexeme, bad text, or the end of what can be read. -/
theorem proceeds_scan (ending : Ending) (s : List Glyph) (pos : Position) :
    (scan ending s pos).Proceeds ending := by
  unfold scan
  simp only
  split
  · exact ⟨nofun, fun _ => rfl⟩
  · exact proceeds_bad _
  · exact proceeds_scanLexeme _ _ _

/-! ## Whole sources

By induction on the glyphs that are left: nothing improper is sent on before bad text, and if reading
fails, bad text does come. -/

/-- Every lexeme that is found is a proper one. -/
theorem proper_of_mem_lexFrom (ending : Ending) (s : List Glyph) (pos : Position) :
    ∀ l ∈ (lexFrom ending s pos).lexemes, l.kind.IsProper := by
  fun_induction lexFrom ending s pos with
  | case1 => simp
  | case2 => simp
  | case3 s pos rest pos' _ _ ih => exact ih
  | case4 s pos lexeme rest pos' hscan _ tail ih =>
    exact List.forall_mem_cons.mpr ⟨(proceeds_scan ending s pos).proper lexeme rest pos' hscan, ih⟩

/-- Reading that fails ends at bad text. -/
theorem bad_isSome_lexFrom (message : String) (s : List Glyph) (pos : Position) :
    (lexFrom (.failure message) s pos).bad.isSome = true := by
  fun_induction lexFrom (.failure message) s pos with
  | case1 s pos hscan => cases (proceeds_scan _ s pos).finished hscan
  | case2 => rfl
  | case3 s pos rest pos' _ _ ih => exact ih
  | case4 s pos lexeme rest pos' _ _ tail ih => exact ih

end Lexer

/-- Every token of a source is a proper one. -/
theorem proper_of_mem_tokens (src : Source) {t : Token} (ht : t ∈ (lex src).tokens) :
    t.kind.IsProper :=
  Lexer.proper_of_mem_lexFrom src.ending src.glyphs {} _ (mem_lexemes_of_mem_tokens ht)

/-- Bad text is sent on at most once, and nothing is sent on behind it. -/
theorem exists_kinds_eq (src : Source) :
    ∃ sent, .bad ∉ sent ∧ (lex src).kinds = sent ++ ((lex src).bad.map fun _ => TokenKind.bad).toList := by
  refine ⟨(lex src).lexemes.map Lexeme.kind, fun hmem => ?_, rfl⟩
  obtain ⟨l, hl, hkind⟩ := List.mem_map.mp hmem
  exact (Lexer.proper_of_mem_lexFrom src.ending src.glyphs {} l hl).1 hkind

/-! ## Parsing

A program is a list of statements that ends at the end of input only. Where that is not offered, the
list goes on until an error. -/

namespace Parser

/-- A token that is not the end of input. -/
def Present (t : Token) : Prop := t.kind ≠ .eof

/-- Without a keyword to stop at, a statement list goes on as long as there are tokens. -/
theorem draws_endless {stmt : Parser Node} (h : Draws Present stmt (Node.Bears Present)) (fuel : Nat) :
    Draws Present (stmts stmt [] fuel) fun _ => False := by
  -- only the end of input or a keyword stops the list, and there is neither
  induction fuel with
  | zero => exact .tooDeep
  | succ fuel ih =>
    have hgoes : ∀ t, Present t → endsBlock [] t = false := by
      intro t ht
      simp [endsBlock, show t.kind ≠ .eof from ht]
    have hrest : ∀ s, Draws Present (do return s :: (← stmts stmt [] fuel)) fun _ => False :=
      fun s => ih.bind fun _ hfalse => hfalse.elim
    refine .bind (.peek 0) fun t ht => .ite (.bind .skip fun _ _ => ih) ?_
    rw [hgoes t ht]
    refine h.bind fun s _ => .bind (.peek 0) fun after hafter => ?_
    exact .ite (.bind .skip fun _ _ => hrest s) (.ite (.fail_bind hafter rfl) (hrest s))

/-- No program is made of tokens without an end. -/
theorem draws_endless_program (fuel : Nat) : Draws Present (program fuel) fun _ => False := by
  refine .bind (.peek 0) fun _ _ => .bind (P := fun _ => False) ?_ fun _ hfalse => hfalse.elim
  exact .bind (.peek 0) fun _ _ =>
    (draws_endless (draws_stmt fuel {}) fuel).bind fun _ hfalse => hfalse.elim

end Parser

/-- A source that ends in bad text does not parse, and its error is not at an end of input. -/
theorem parse_error_of_bad {src : Source} {b : BadLexeme} (hbad : (lex src).bad = some b) :
    ∃ e, parse src = .error e ∧ e.token.kind ≠ .eof := by
  obtain ⟨fault, hending, hfault⟩ : ∃ e, (lex src).ending = .error e ∧ e.token.kind ≠ .eof := by
    rw [Lexed.ending, hbad]
    exact ⟨_, rfl, nofun⟩
  have hstart : (Cursor.start (lex src)).Offers Parser.Present := by
    refine ⟨fun t ht => (proper_of_mem_tokens src ht).2, fun t ht => ?_⟩
    rw [show (Cursor.start (lex src)).ending = _ from hending] at ht
    cases ht
  -- the program cannot end, so the parse fails at a token or at the bad text
  have hdraws := Parser.draws_endless_program ((lex src).tokens.length + 1) _ hstart
  unfold parse parseFrom
  cases hrun : (Parser.program ((lex src).tokens.length + 1)).run (.start (lex src)) with
  | ok r =>
    rw [hrun] at hdraws
    exact hdraws.1.elim
  | error e =>
    rw [hrun] at hdraws
    refine ⟨e, ?_, ?_⟩
    · rw [show (Parser.program ((Cursor.start (lex src)).rest.length + 1)).run _ = _ from hrun]
      rfl
    · rcases hdraws with ⟨hpresent, -⟩ | hlast
      · exact hpresent
      · rw [show (Cursor.start (lex src)).ending = _ from hending] at hlast
        cases hlast
        exact hfault

/-- If reading fails behind some glyphs, bad text is the last thing that is sent on and the only bad text,
and the parse ends with an error that is not at an end of input. If the source is read to its end, bad text is
sent on at most once, and last. -/
theorem read_failure_final (glyphs : List Glyph) (message : String) :
    (∃ sent, .bad ∉ sent ∧ (lex ⟨glyphs, .failure message⟩).kinds = sent ++ [.bad]) ∧
      (∃ e, parse ⟨glyphs, .failure message⟩ = .error e ∧ e.token.kind ≠ .eof) ∧
      ∃ sent, .bad ∉ sent ∧
        ((lex ⟨glyphs, .eof⟩).kinds = sent ∨ (lex ⟨glyphs, .eof⟩).kinds = sent ++ [.bad]) := by
  obtain ⟨b, hb⟩ := Option.isSome_iff_exists.mp (Lexer.bad_isSome_lexFrom message glyphs {})
  have hbad : (lex ⟨glyphs, .failure message⟩).bad = some b := hb
  refine ⟨?_, parse_error_of_bad hbad, ?_⟩
  · obtain ⟨sent, hsent, hkinds⟩ := exists_kinds_eq ⟨glyphs, .failure message⟩
    rw [hbad] at hkinds
    exact ⟨sent, hsent, hkinds⟩
  · obtain ⟨sent, hsent, hkinds⟩ := exists_kinds_eq ⟨glyphs, .eof⟩
    refine ⟨sent, hsent, ?_⟩
    cases hlast : (lex ⟨glyphs, .eof⟩).bad with
    | none => exact .inl (by rw [hkinds, hlast]; exact List.append_nil sent)
    | some last => exact .inr (by rw [hkinds, hlast]; rfl)

/-- A read error inside a string is sent on as bad text, and no string comes of it. -/
example : (lex ⟨Glyph.ofString "x = 'a", .failure "broken pipe"⟩).kinds = [.ident, .op, .bad] := by
  decide +kernel

end ScriptPir

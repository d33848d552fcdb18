import ScriptPir.Proofs.Tiling

/-!
# What a step of the lexer takes

A step of the lexer that goes on leaves a proper suffix of what there was to read (`Scan.Leaves`), so it
takes at least one glyph off the front. That is so for each kind of lexeme, whatever state reading is in, and
of any glyphs, also those that are no ASCII and those behind which reading failed.

Main statements: `Lexer.consuming`, for the single steps, and `Lexer.lexWithin?_eq`, by which a lexer that counts
its steps is never stopped if it may take one more than there are glyphs.

The lexer is run by recursion on the number of glyphs that are left. `Scan.Consumes` is the step lemma
for it, and it is stated for the single scanners too, since each of them is entered with a character
already looked at.
-/

namespace ScriptPir

namespace Lexer

/-- What a step leaves to read, if it goes on, is an end of `s`. -/
def Scan.Leaves (s : List Glyph) (r : Scan) : Prop := ∀ rest, r.rest? = some rest → rest <:+ s

/-- A step from `s` takes glyphs off its front, at least one, or it ends the reading. -/
def Scan.Consumes (s : List Glyph) (r : Scan) : Prop :=
  ∀ rest, r.rest? = some rest → ∃ taken, taken ≠ [] ∧ s = taken ++ rest

variable {ending : Ending} {pos next : Position} {s t rest : List Glyph} {r : Scan}

/-- A step that ends the reading leaves nothing to go on with. -/
theorem leaves_bad {b : BadLexeme} : (Scan.bad b).Leaves s := nofun

/-- A lexeme leaves what stands behind it. -/
theorem leaves_found {l : Lexeme} (h : rest <:+ s) : (Scan.found l rest pos).Leaves s := by
  intro rest' hrest
  cases hrest
  exact h

/-- Both sides of a choice leave an end of the same glyphs. -/
theorem leaves_ite {b : Prop} [Decidable b] {r' : Scan} (hr : r.Leaves s) (hr' : r'.Leaves s) :
    (if b then r else r').Leaves s := by
  split
  · exact hr
  · exact hr'

/-- What is settled at the end of a source is left as it was found. -/
theorem leaves_settle {l : Lexeme} (h : rest <:+ s) : (settle ending pos l rest next).Leaves s := by
  unfold settle
  split
  · exact leaves_bad
  · exact leaves_found h

theorem Scan.Leaves.trans (h : r.Leaves s) (hs : s <:+ t) : r.Leaves t :=
  fun rest hrest => (h rest hrest).trans hs

/-- What is left of the glyphs behind the first one does not hold the first one. -/
theorem Scan.Leaves.consumes {g : Glyph} (h : r.Leaves s) : r.Consumes (g :: s) := by
  intro rest hrest
  obtain ⟨taken, htaken⟩ := h rest hrest
  exact ⟨g :: taken, List.cons_ne_nil _ _, by rw [List.cons_append, htaken]⟩

/-- Glyphs passed before a step are taken, too. -/
theorem Scan.Consumes.append (h : r.Consumes s) (passed : List Glyph) : r.Consumes (passed ++ s) := by
  intro rest hrest
  obtain ⟨taken, hne, rfl⟩ := h rest hrest
  exact ⟨passed ++ taken, by simp [hne], by rw [List.append_assoc]⟩

/-! ## The kinds of lexemes

In the order of the lexer, each function for one kind of lexeme leaves an end of the glyphs that it
is given. The first glyph of a lexeme was taken off before, so the step takes at least that one. -/

/-- What a run of characters of a class leaves is an end. -/
theorem run_snd_suffix (p : Char → Bool) (s : List Glyph) : (run p s).2 <:+ s := List.dropWhile_suffix _

theorem leaves_scanRun (kind : TokenKind) (p : Char → Bool) (first : Glyph) :
    (scanRun ending pos kind p first s).Leaves s :=
  leaves_settle (run_snd_suffix p s)

/-- A global is the run behind its dollar sign. -/
theorem leaves_scanGlobal : (scanGlobal ending pos s).Leaves s := by
  unfold scanGlobal
  split
  · exact leaves_bad
  · apply leaves_scanRun

/-- An operator leaves what stands behind its characters. -/
theorem leaves_scanOp (c : Char) : (scanOp pos c s).Leaves s := by
  unfold scanOp
  simp only
  split
  · exact leaves_found (List.drop_suffix _ _)
  · exact leaves_bad

theorem leaves_scanLineComment : (scanLineComment ending pos s).Leaves s :=
  leaves_settle (run_snd_suffix (· ≠ '\n') s)

/-- A block comment leaves what stands behind the line of its end. -/
theorem leaves_scanBlockComment (g : Glyph) : (scanBlockComment ending pos g s).Leaves s := by
  unfold scanBlockComment
  split
  · exact leaves_bad
  · rename_i body rest h
    obtain ⟨front, last, hs, -, hrest, -⟩ := takeBlock_spec h
    have hsuffix : rest <:+ s := by
      have hline : rest <:+ last := ⟨_, hrest ▸ takeLine_append last⟩
      exact hline.trans ⟨front, hs.symm⟩
    split
    · exact leaves_ite (leaves_found hsuffix) (leaves_settle hsuffix)
    · exact leaves_settle hsuffix

/-- Target code leaves what stands behind its brace. -/
theorem leaves_scanPir : (scanPir ending pos s).Leaves s := by
  unfold scanPir
  split
  · exact leaves_bad
  · rename_i body rest h
    obtain ⟨brace, hs, -⟩ := takeBraced_append h
    exact leaves_found ⟨body ++ [brace], by rw [hs]; simp⟩

/-- A string leaves what stands behind its mark. -/
theorem leaves_scanString (mark : Char) : (scanString ending pos mark s).Leaves s := by
  unfold scanString
  split
  · exact leaves_bad
  · rename_i body rest h
    exact leaves_found ⟨body, (takeQuoted_append h).symm⟩

/-- An exponent leaves what stands behind its digits. -/
theorem leaves_scanExponent (mantissa : String) : (scanExponent ending pos mantissa s).Leaves s := by
  have hsign : (takeSign s).2 <:+ s := ⟨(takeSign s).1, (takeSign_spec rfl).1.symm⟩
  unfold scanExponent
  simp only
  exact leaves_ite leaves_bad (leaves_settle ((run_snd_suffix _ _).trans hsign))

/-- A mantissa leaves what stands behind its exponent, or behind its digits. -/
theorem leaves_scanMantissa (kind : TokenKind) (text : String) :
    (scanMantissa ending pos kind text s).Leaves s := by
  unfold scanMantissa
  split
  · rename_i g s
    exact leaves_ite ((leaves_scanExponent _).trans (List.suffix_cons g s)) (leaves_found (List.suffix_refl _))
  · exact leaves_settle (List.suffix_refl _)

theorem leaves_scanHex : (scanHex ending pos s).Leaves s :=
  leaves_ite leaves_bad (leaves_settle (run_snd_suffix _ s))

/-- A number leaves what stands behind it, whichever form it has. -/
theorem leaves_scanNumber (first : Glyph) : (scanNumber ending pos first s).Leaves s := by
  have hdigits := run_snd_suffix (fun c => isDigit c || c = '_') s
  unfold scanNumber
  simp only
  split
  · exact leaves_settle hdigits
  · rename_i g after h
    rw [h] at hdigits ⊢
    have hafter : after <:+ s := (List.suffix_cons g after).trans hdigits
    refine leaves_ite (leaves_ite (leaves_scanHex.trans hafter) leaves_bad) (leaves_ite ?_ ?_)
    · -- a point belongs to the number only if a digit follows it
      have hfraction := (run_snd_suffix isDigit after).trans hafter
      exact leaves_ite (leaves_found hdigits) ((leaves_scanMantissa _ _).trans hfraction)
    · exact (leaves_scanMantissa _ _).trans hdigits

/-- A lexeme leaves an end of what stands behind its first glyph. -/
theorem leaves_scanLexeme (g : Glyph) : (scanLexeme ending pos g s).Leaves s := by
  have hsingle : ∀ kind c, (single pos kind c s).Leaves s := fun _ _ => leaves_found (List.suffix_refl s)
  have hskipped : ∀ p, (Scan.skipped (s.drop 1) p).Leaves s := by
    intro p rest hrest
    cases hrest
    exact List.drop_suffix _ _
  unfold scanLexeme
  -- the kinds are tried in the order in which they are told apart
  apply leaves_ite (hsingle _ _)
  apply leaves_ite (hskipped _)
  apply leaves_ite (leaves_scanBlockComment g)
  apply leaves_ite (leaves_scanRun _ _ g)
  apply leaves_ite leaves_scanGlobal
  apply leaves_ite (leaves_scanPir.trans (List.drop_suffix _ _))
  apply leaves_ite (leaves_scanOp _)
  apply leaves_ite (hsingle _ _)
  apply leaves_ite (hsingle _ _)
  apply leaves_ite (hsingle _ _)
  apply leaves_ite (leaves_scanNumber g)
  apply leaves_ite (leaves_scanString _)
  exact leaves_ite leaves_scanLineComment leaves_bad

/-- A step takes the blanks in front, and at least one glyph of the lexeme. -/
theorem consumes_scan : (scan ending s pos).Consumes s := by
  have hblanks := List.takeWhile_append_dropWhile (p := (isBlank ·.read)) (l := s)
  unfold scan run
  simp only
  split
  · exact nofun
  · exact nofun
  · rename_i g after h
    rw [h] at hblanks
    rw [← hblanks]
    exact ((leaves_scanLexeme g).consumes).append _

/-! ## All steps

One structure for all the states in which the lexer can be. Each field is the step of one kind of
lexeme, with the glyphs by which that kind is told put back in front. -/

/-- Whatever a lexer does where the glyphs `g :: s` are left to read consumes some of them. The kinds of lexemes
are each given what stands behind the glyphs by which they are told: the first one, and for target code
all of its opening. -/
structure Consuming (ending : Ending) (pos : Position) (g : Glyph) (s : List Glyph) : Prop where
  step : (scan ending (g :: s) pos).Consumes (g :: s)
  lexeme : (scanLexeme ending pos g s).Consumes (g :: s)
  ident : (scanRun ending pos .ident isIdentRest g s).Consumes (g :: s)
  global : (scanGlobal ending pos s).Consumes (g :: s)
  op : (scanOp pos g.read s).Consumes (g :: s)
  lineComment : (scanLineComment ending pos s).Consumes (g :: s)
  blockComment : (scanBlockComment ending pos g s).Consumes (g :: s)
  pir : (scanPir ending pos (s.drop 4)).Consumes (g :: s)
  number : (scanNumber ending pos g s).Consumes (g :: s)
  string : (scanString ending pos g.read s).Consumes (g :: s)

/-- In every state the lexer takes a glyph or ends. -/
theorem consuming (ending : Ending) (pos : Position) (g : Glyph) (s : List Glyph) :
    Consuming ending pos g s where
  step := consumes_scan
  lexeme := (leaves_scanLexeme g).consumes
  ident := (leaves_scanRun _ _ g).consumes
  global := leaves_scanGlobal.consumes
  op := (leaves_scanOp _).consumes
  lineComment := leaves_scanLineComment.consumes
  blockComment := (leaves_scanBlockComment g).consumes
  pir := (leaves_scanPir.trans (List.drop_suffix 4 s)).consumes
  number := (leaves_scanNumber g).consumes
  string := (leaves_scanString _).consumes

/-! ## The whole source

A lexer that counts its steps is compared with the one that runs, which has no bound: since each step
takes a glyph, one step more than there are glyphs is always enough. -/

/-- Reads lexemes from a place on in fewer steps than `fuel`. -/
def lexWithin? (ending : Ending) : (fuel : Nat) → List Glyph → Position → Option Lexed
  | 0, _, _ => none
  | fuel + 1, s, pos =>
    match scan ending s pos with
    | .finished => some {}
    | .bad b => some ⟨[], some b⟩
    | .skipped rest pos' => lexWithin? ending fuel rest pos'
    | .found lexeme rest pos' =>
      (lexWithin? ending fuel rest pos').map fun tail => ⟨lexeme :: tail.lexemes, tail.bad⟩

/-- Each step but the last takes a glyph. -/
theorem lexWithin?_eq (ending : Ending) (s : List Glyph) (pos : Position) :
    ∀ fuel, s.length < fuel → lexWithin? ending fuel s pos = some (lexFrom ending s pos) := by
  fun_induction lexFrom ending s pos with
  | case1 s pos hscan =>
    -- the induction is along the recursion of `lexFrom`; no case is without fuel, and where reading
    -- goes on there are fewer glyphs
    rintro (_ | fuel) hfuel
    · exact absurd hfuel (Nat.not_lt_zero _)
    · simp only [lexWithin?, hscan]
  | case2 s pos b hscan =>
    rintro (_ | fuel) hfuel
    · exact absurd hfuel (Nat.not_lt_zero _)
    · simp only [lexWithin?, hscan]
  | case3 s pos rest next hscan hlt ih =>
    rintro (_ | fuel) hfuel
    · exact absurd hfuel (Nat.not_lt_zero _)
    · have hrest : rest.length < fuel := by omega
      simp only [lexWithin?, hscan, ih fuel hrest]
  | case4 s pos lexeme rest next hscan hlt tail ih =>
    rintro (_ | fuel) hfuel
    · exact absurd hfuel (Nat.not_lt_zero _)
    · have hrest : rest.length < fuel := by omega
      simp only [lexWithin?, hscan, ih fuel hrest, Option.map_some]
      rfl

end Lexer

end ScriptPir

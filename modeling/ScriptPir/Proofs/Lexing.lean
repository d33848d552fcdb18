import ScriptPir.Proofs.Escapes
import ScriptPir.Tree.Cursor

/-!
# What the lexer promises the parser

* Every string among the tokens of a source is a well quoted text between two quotes, so it has a value
  (`exists_literal_of_mem_tokens`), and every float begins with a digit (`sound_of_mem_tokens`).
* Behind the last token stands the end of input or the fault at which reading stopped
  (`kind_of_ending`).

These are the facts about tokens that the lexer knows and the parser relies on without a check. They
hold of the tokens of any source, also of one that has a bad token, because a bad token is not in the
list but stands behind it.
-/

namespace ScriptPir

/-! ## Sound tokens

Only strings and floats have something to promise; tokens of all other kinds are sound by their kind. -/

/-- A token is a well quoted text between two marks, which are quotes. -/
def Token.Quoted (t : Token) (mark : Char) (inside : List Char) : Prop :=
  (mark = '\'' ∨ mark = '"') ∧ t.text.toList = mark :: (inside ++ [mark]) ∧ WellQuoted mark inside

/-- A text begins with a digit. -/
def DigitFirst (text : String) : Prop := ∃ c rest, text.toList = c :: rest ∧ Lexer.isDigit c = true

/-- What a text begins with stays when more is written behind it. -/
theorem DigitFirst.append {text : String} (h : DigitFirst text) (more : String) :
    DigitFirst (text ++ more) := by
  obtain ⟨c, rest, htext, hc⟩ := h
  exact ⟨c, rest ++ more.toList, by rw [String.toList_append, htext, List.cons_append], hc⟩

/-- A text that is read from a digit on begins with a digit. -/
theorem digitFirst_text {g : Glyph} (hg : Lexer.isDigit g.read = true) (s : List Glyph) :
    DigitFirst (Glyph.text (g :: s)) :=
  ⟨g.read, s.map Glyph.read, by rw [Glyph.text, String.toList_ofList, List.map_cons], hg⟩

/-- What the parser can rely on in the text of a token. -/
structure Token.Sound (t : Token) : Prop where
  quoted : t.kind = .string → ∃ mark inside, t.Quoted mark inside
  digit : t.kind = .float → DigitFirst t.text

section Kinds

variable {kind : TokenKind} {text : String} {line col : Int}

/-- A token that is neither a string nor a float is sound. -/
theorem Token.Sound.plain (h : kind ≠ .string ∧ kind ≠ .float) :
    (⟨kind, text, line, col⟩ : Token).Sound :=
  ⟨fun hstring => absurd hstring h.1, fun hfloat => absurd hfloat h.2⟩

/-- A number whose text begins with a digit is sound, whether it is an integer or a float. -/
theorem Token.Sound.number (hkind : kind ≠ .string) (htext : DigitFirst text) :
    (⟨kind, text, line, col⟩ : Token).Sound :=
  ⟨fun hstring => absurd hstring hkind, fun _ => htext⟩

end Kinds

namespace Lexer

/-! ## Steps of the lexer

One lemma for each function of the lexer, in the order in which they call each other. Each takes the
branches of its function apart and cites the lemma of what a branch calls. -/

/-- A step that finds a token finds a sound one. -/
structure Scan.Sound (r : Scan) : Prop where
  sound : ∀ t rest pos, r = .found (.token t) rest pos → t.Sound

/-- A step is sound if the lexeme it finds is. -/
theorem sound_found {l : Lexeme} {rest : List Glyph} {pos : Position}
    (h : ∀ t, l = .token t → t.Sound) : (Scan.found l rest pos).Sound := by
  refine ⟨?_⟩
  rintro t _ _ ⟨rfl, rfl, rfl⟩
  exact h t rfl

theorem sound_bad {b : BadLexeme} : (Scan.bad b).Sound := ⟨fun _ _ _ => nofun⟩

/-- A token at a place is sound if its kind and text are. -/
theorem sound_tokenAt {kind : TokenKind} {text : String} {pos : Position}
    (h : (⟨kind, text, pos.line, pos.col⟩ : Token).Sound) (rest : List Glyph) (next : Position) :
    (Scan.found (tokenAt pos kind text) rest next).Sound := by
  refine sound_found ?_
  rintro t ⟨rfl⟩
  exact h

/-- What is found in front of the rest of the input is sound if the lexeme is. -/
theorem sound_settle {ending : Ending} {pos next : Position} {l : Lexeme} {rest : List Glyph}
    (h : ∀ t, l = .token t → t.Sound) : (settle ending pos l rest next).Sound := by
  unfold settle
  split
  · exact sound_bad
  · exact sound_found h

/-- What is found in front of the rest of the input is sound if the token is. -/
theorem sound_settle_tokenAt {kind : TokenKind} {text : String} {pos : Position}
    (h : (⟨kind, text, pos.line, pos.col⟩ : Token).Sound) (ending : Ending) (rest : List Glyph)
    (next : Position) : (settle ending pos (tokenAt pos kind text) rest next).Sound := by
  refine sound_settle ?_
  rintro t ⟨rfl⟩
  exact h

/-- A choice between two sound steps is sound. -/
theorem sound_ite {b : Prop} [Decidable b] {r s : Scan} (hr : b → r.Sound) (hs : ¬b → s.Sound) :
    (if b then r else s).Sound := by
  split
  · exact hr ‹_›
  · exact hs ‹_›

/-- A string is found between two equal quotes, with each inner one behind a backslash. -/
theorem sound_scanString {ending : Ending} {pos : Position} {mark : Char} {s : List Glyph}
    (hmark : mark = '\'' ∨ mark = '"') : (scanString ending pos mark s).Sound := by
  unfold scanString
  split
  · exact sound_bad
  · rename_i body rest h
    obtain ⟨inside, hbody, hquoted⟩ := takeQuoted_spec (by rcases hmark with rfl | rfl <;> decide) h
    refine sound_tokenAt ⟨fun _ => ⟨mark, inside, hmark, ?_, hquoted⟩, ?_⟩ ..
    · rw [Glyph.text, String.toList_ofList, List.map_cons, hbody]
      rfl
    · nofun

/-- An exponent is written behind the mantissa, which begins with a digit. -/
theorem sound_scanExponent {mantissa : String} (h : DigitFirst mantissa) (ending : Ending)
    (pos : Position) (s : List Glyph) : (scanExponent ending pos mantissa s).Sound := by
  unfold scanExponent
  refine sound_ite (fun _ => sound_bad) fun _ => sound_settle_tokenAt (.number (by decide) ?_) ..
  exact (h.append _).append _

/-- A number whose first part begins with a digit is sound, with an exponent or without. -/
theorem sound_scanMantissa {kind : TokenKind} (hkind : kind ≠ .string) {text : String}
    (h : DigitFirst text) (ending : Ending) (pos : Position) (rest : List Glyph) :
    (scanMantissa ending pos kind text rest).Sound := by
  unfold scanMantissa
  split
  · exact sound_ite (fun _ => sound_scanExponent h ..) fun _ => sound_tokenAt (.number hkind h) ..
  · exact sound_settle_tokenAt (.number hkind h) ..

/-- A number is sound: its text begins with the digit that it is told by. -/
theorem sound_scanNumber {g : Glyph} (hg : isDigit g.read = true) (ending : Ending) (pos : Position)
    (s : List Glyph) : (scanNumber ending pos g s).Sound := by
  -- a number in hexadecimal is an integer, so nothing is promised of it
  have hhex : ∀ s, (scanHex ending pos s).Sound := fun s =>
    sound_ite (fun _ => sound_bad) fun _ => sound_settle_tokenAt (.plain (by decide)) ..
  have hwhole := digitFirst_text hg
  unfold scanNumber
  simp only
  split
  · exact sound_settle_tokenAt (.plain (by decide)) ..
  · refine sound_ite (fun _ => ?_) fun _ => sound_ite (fun _ => ?_) fun _ => ?_
    · exact sound_ite (fun _ => hhex _) fun _ => sound_bad
    · exact sound_ite (fun _ => sound_tokenAt (.plain (by decide)) ..)
        fun _ => sound_scanMantissa (by decide) (((hwhole _).append _).append _) ..
    · exact sound_scanMantissa (by decide) (hwhole _) ..

/-- A comment in brackets is no token. -/
theorem sound_scanBlockComment (ending : Ending) (pos : Position) (g : Glyph) (s : List Glyph) :
    (scanBlockComment ending pos g s).Sound := by
  unfold scanBlockComment
  split
  · exact sound_bad
  · simp only
    split
    · exact sound_ite (fun _ => sound_found fun _ => nofun) fun _ => sound_settle fun _ => nofun
    · exact sound_settle fun _ => nofun

/-- Inline code is neither a string nor a float. -/
theorem sound_scanPir (ending : Ending) (pos : Position) (s : List Glyph) :
    (scanPir ending pos s).Sound := by
  unfold scanPir
  split
  · exact sound_bad
  · exact sound_tokenAt (.plain (by decide)) ..

/-- A global is neither a string nor a float. -/
theorem sound_scanGlobal (ending : Ending) (pos : Position) (s : List Glyph) :
    (scanGlobal ending pos s).Sound := by
  unfold scanGlobal
  split
  · exact sound_bad
  · exact sound_settle_tokenAt (.plain (by decide)) ..

/-- An operator is neither a string nor a float. -/
theorem sound_scanOp (pos : Position) (c : Char) (s : List Glyph) : (scanOp pos c s).Sound := by
  unfold scanOp
  simp only
  split
  · exact sound_tokenAt (.plain (by decide)) ..
  · exact sound_bad

/-- Whatever the first character leads to, the step is sound. -/
theorem sound_scanLexeme (ending : Ending) (pos : Position) (g : Glyph) (s : List Glyph) :
    (scanLexeme ending pos g s).Sound := by
  have hsingle : ∀ kind c, kind ≠ .string ∧ kind ≠ .float → (single pos kind c s).Sound :=
    fun kind c hkind => sound_tokenAt (.plain hkind) ..
  unfold scanLexeme
  refine sound_ite (fun _ => hsingle _ _ (by decide)) fun _ => ?_
  refine sound_ite (fun _ => ⟨fun _ _ _ => nofun⟩) fun _ => ?_
  refine sound_ite (fun _ => sound_scanBlockComment ..) fun _ => ?_
  refine sound_ite (fun _ => sound_settle_tokenAt (.plain (by decide)) ..) fun _ => ?_
  refine sound_ite (fun _ => sound_scanGlobal ..) fun _ => ?_
  refine sound_ite (fun _ => sound_scanPir ..) fun _ => ?_
  refine sound_ite (fun _ => sound_scanOp ..) fun _ => ?_
  refine sound_ite (fun _ => hsingle _ _ (by decide)) fun _ => ?_
  refine sound_ite (fun _ => hsingle _ _ (by decide)) fun _ => ?_
  refine sound_ite (fun _ => hsingle _ _ (by decide)) fun _ => ?_
  -- only digits and quotes need what is known of the first character
  refine sound_ite (fun hdigit => sound_scanNumber hdigit ..) fun _ => ?_
  refine sound_ite (fun hquote => ?_) fun _ => ?_
  · exact sound_scanString (by simpa using hquote)
  · exact sound_ite (fun _ => sound_settle fun _ => nofun) fun _ => sound_bad

/-- A step of the lexer is sound. -/
theorem sound_scan (ending : Ending) (s : List Glyph) (pos : Position) :
    (scan ending s pos).Sound := by
  unfold scan
  simp only
  split
  · exact ⟨fun _ _ _ => nofun⟩
  · exact sound_bad
  · exact sound_scanLexeme ..

/-- All tokens that are found from a place on are sound. -/
theorem sound_of_mem_lexFrom (ending : Ending) (s : List Glyph) (pos : Position) {t : Token}
    (ht : .token t ∈ (lexFrom ending s pos).lexemes) : t.Sound := by
  fun_induction lexFrom ending s pos with
  | case1 => cases ht
  | case2 => cases ht
  | case3 s pos rest pos' _ _ ih => exact ih ht
  | case4 s pos lexeme rest pos' hscan _ tail ih =>
    obtain heq | hmem := List.mem_cons.mp ht
    · exact (sound_scan ending s pos).sound t rest pos' (by rw [hscan, heq])
    · exact ih hmem

end Lexer

/-! ## Sources

The tokens are what the parser reads; comments are lexemes that it never sees. -/

/-- A token of a source is one of its lexemes. -/
theorem mem_lexemes_of_mem_tokens {l : Lexed} {t : Token} (ht : t ∈ l.tokens) :
    .token t ∈ l.lexemes := by
  obtain ⟨lexeme, hmem, heq⟩ := List.mem_filterMap.mp ht
  cases lexeme with
  | token u => cases heq; exact hmem
  | comment body pos => cases heq

theorem sound_of_mem_tokens (src : Source) {t : Token} (ht : t ∈ (lex src).tokens) : t.Sound :=
  Lexer.sound_of_mem_lexFrom src.ending src.glyphs {} (mem_lexemes_of_mem_tokens ht)

/-- The value of a quoted text; in single quotes, its own quotes are turned into double ones. -/
theorem literal_of_quoted {t : Token} {mark : Char} {inside : List Char} (h : t.Quoted mark inside)
    (hkind : t.kind = .string) :
    literal t = .ok (.str (String.ofList
      (if mark = '\'' then Literal.escapeQuotes (Literal.plainQuotes inside) else inside))) := by
  obtain ⟨hmark, htext, -⟩ := h
  have hascii : mark.toNat < 0x80 := by rcases hmark with rfl | rfl <;> decide
  simp [literal, hkind, Literal.string, htext, hascii]

/-- Every string among the tokens of a source has a value. -/
theorem exists_literal_of_mem_tokens (src : Source) {t : Token} (ht : t ∈ (lex src).tokens)
    (hkind : t.kind = .string) : ∃ v, literal t = .ok v := by
  obtain ⟨mark, inside, hquoted⟩ := (sound_of_mem_tokens src ht).quoted hkind
  exact ⟨_, literal_of_quoted hquoted hkind⟩

/-- A source that was read as a whole ends with the token for the end of input. -/
theorem kind_of_ending (l : Lexed) {t : Token} (ht : l.ending = .ok t) : t.kind = .eof := by
  unfold Lexed.ending at ht
  split at ht
  · cases ht; rfl
  · cases ht

end ScriptPir

import ScriptPir.Token.Lexer

/-!
# Where lexemes stand in a source

A source is cut into tiles: each is a gap and the span of one lexeme, and behind the last tile there is
one more gap. `lex_tiles` says so of ASCII sources that are read to the end, where a column is one byte
and one character: the spans stand one behind the other and spell the lexemes, each lexeme has the line
and the column at which its span begins, and gaps hold nothing but blanks, line continuations and the
line feed behind a block comment.

One step of the lexer takes one span, with what it passes behind it (`Scan.Cuts`); the functions for the
kinds of lexemes are followed in the order in which they stand there.
-/

namespace ScriptPir

/-! ## Places

The specification of a place is a function of the text in front of it: its line feeds, and what
stands behind the last of them. The lexer counts as it goes, and both agree on any text. -/

namespace Position

/-- The place after a text that starts at the first place of a source. -/
def ofText (s : List Char) : Position :=
  ⟨1 + s.count '\n', 1 + (s.reverse.takeWhile (· ≠ '\n')).length⟩

/-- One more character moves the place behind it. -/
theorem ofText_concat (s : List Char) (g : Glyph) :
    (ofText s).after g = ofText (s ++ [g.read]) := by
  unfold Position.after ofText below right
  by_cases hnl : g.read = '\n'
  · simp [hnl, Int.add_assoc]
  · simp [hnl, Int.add_comm]

/-- Behind some glyphs the place is that of the text with their characters. -/
theorem afterAll_ofText (s : List Char) (glyphs : List Glyph) :
    (ofText s).afterAll glyphs = ofText (s ++ glyphs.map Glyph.read) := by
  unfold Position.afterAll
  induction glyphs generalizing s with
  | nil => simp
  | cons g glyphs ih =>
    rw [List.foldl_cons, ofText_concat, ih, List.append_assoc]
    rfl

theorem afterAll_append (p : Position) (s t : List Glyph) :
    p.afterAll (s ++ t) = (p.afterAll s).afterAll t := List.foldl_append

theorem right_zero (p : Position) : p.right 0 = p := by simp [right]

theorem right_right (p : Position) (m n : Nat) : (p.right m).right n = p.right (m + n) := by
  simp [right, Int.add_assoc]

/-- On one line, each glyph takes one column. -/
theorem afterAll_of_line (p : Position) {s : List Glyph} (h : ∀ g ∈ s, g.read ≠ '\n') :
    p.afterAll s = p.right s.length := by
  induction s generalizing p with
  | nil => exact (right_zero p).symm
  | cons g s ih =>
    rw [List.forall_mem_cons] at h
    show (p.after g).afterAll s = _
    rw [Position.after, if_neg h.1, ih _ h.2, right_right, List.length_cons, Nat.add_comm]

/-- Behind a line feed, only the lines count. -/
theorem afterAll_below (p : Position) {s : List Glyph} {g : Glyph} (hg : g.read = '\n') :
    p.afterAll (s ++ [g]) = p.below ((s ++ [g]).countP (·.read = '\n')) := by
  have hline : (p.afterAll s).line = p.line + (s.countP (·.read = '\n') : Nat) := by
    induction s generalizing p with
    | nil => simp [Position.afterAll]
    | cons h s ih =>
      show ((p.after h).afterAll s).line = _
      rw [ih]
      unfold Position.after
      by_cases hnl : h.read = '\n'
      · simp [hnl, below]
        omega
      · simp [hnl, right]
  rw [afterAll_append]
  show (p.afterAll s).after g = _
  simp [Position.after, hg, below, hline, Int.add_assoc]

end Position

/-! ## ASCII

Columns count bytes, so in ASCII sources they count characters. -/

/-- A glyph is a character of one byte. -/
def Glyph.IsAscii (g : Glyph) : Prop := ∃ c : Char, g = .char c ∧ c.toNat < 0x80

/-- A text of ASCII characters has as many bytes as characters. -/
theorem utf8ByteSize_of_ascii {s : String} (h : ∀ c ∈ s.toList, c.toNat < 0x80) :
    s.utf8ByteSize = s.toList.length := by
  obtain ⟨l, rfl⟩ : ∃ l, s = String.ofList l := ⟨s.toList, String.ofList_toList.symm⟩
  rw [String.toList_ofList] at h ⊢
  induction l with
  | nil => rfl
  | cons c l ih =>
    rw [List.forall_mem_cons] at h
    have hsize : c.utf8Size = 1 :=
      Char.utf8Size_eq_one_iff.mpr (UInt32.le_iff_toNat_le.mpr (Nat.le_of_lt_succ h.1))
    rw [String.ofList_cons, String.utf8ByteSize_append, String.utf8ByteSize_singleton, ih h.2, hsize,
      List.length_cons, Nat.add_comm]

namespace Lexer

/-! ## Spans

`Scan.Cuts` is the invariant of a step: a span is cut off that spells the lexeme, and the place moves
behind it. For tokens on one line it follows from `Written`, which says the same of a text without
the rest of the source. -/

/-- A character of a number, as it is kept: the letters that introduce parts of it are small. -/
def lowered (kind : TokenKind) (c : Char) : Char :=
  if kind = .int ∧ c = 'X' then 'x' else if kind = .float ∧ c = 'E' then 'e' else c

end Lexer

open Lexer

/-- A text of a source spells a lexeme. Target code stands in the braces that `%pir` opens; a token of
any other kind is kept as it is written, but for the letters of numbers. -/
def Lexeme.Spells : Lexeme → List Char → Prop
  | token t, span =>
    if t.kind = .pir then span = ['%', 'p', 'i', 'r', '\x7b'] ++ t.text.toList ++ ['\x7d']
    else t.text.toList = span.map (lowered t.kind)
  | comment body _, span => body.map Glyph.read = span

/-- The place of a lexeme. -/
def Lexeme.place : Lexeme → Position
  | token t => ⟨t.line, t.col⟩
  | comment _ pos => pos

/-- Whether a lexeme is a block comment. -/
def Lexeme.isBlock : Lexeme → Bool
  | token _ => false
  | comment body _ => body.head?.any (·.read = '=')

namespace Lexer

variable {pos : Position} {ending : Ending}

/-- A step takes the span of one lexeme off the front of some glyphs, and the line feed behind it if it
is a block comment, and goes on behind them; or it takes a line continuation. -/
def Scan.Cuts (pos : Position) (s : List Glyph) : Scan → Prop
  | finished => s = []
  | bad _ => True
  | skipped rest next =>
    ∃ pair, s = pair ++ rest ∧ pair.map Glyph.read = ['\\', '\n'] ∧ next = pos.afterAll pair
  | found l rest next =>
    ∃ span passed, s = span ++ passed ++ rest ∧ span ≠ [] ∧ l.Spells (span.map Glyph.read) ∧
      l.place = pos ∧ (passed = [] ∨ l.isBlock = true ∧ passed.map Glyph.read = ['\n']) ∧
      (rest ≠ [] → next = pos.afterAll (span ++ passed))

/-- A lexeme in front of the rest of the input cuts its span off. -/
theorem cuts_settle {l : Lexeme} {s rest : List Glyph} {next : Position}
    (h : (Scan.found l rest next).Cuts pos s) : (settle ending pos l rest next).Cuts pos s := by
  unfold settle
  split
  · trivial
  · exact h

/-- A step with two branches cuts a span off if both do. -/
theorem cuts_ite {b : Prop} [Decidable b] {s : List Glyph} {r r' : Scan} (hr : b → r.Cuts pos s)
    (hr' : ¬b → r'.Cuts pos s) : (if b then r else r').Cuts pos s := by
  split
  · exact hr ‹_›
  · exact hr' ‹_›

/-- A token that is kept as it is written spells it. -/
theorem spells_tokenAt {kind : TokenKind} {text : String} {span : List Char} (hkind : kind ≠ .pir)
    (htext : text.toList = span.map (lowered kind)) : (tokenAt pos kind text).Spells span := by
  show if kind = .pir then _ else _
  rw [if_neg hkind]
  exact htext

/-- A character that is no line feed moves the place to the right by one. -/
theorem after_of_ne {g : Glyph} (h : g.read ≠ '\n') : pos.after g = pos.right 1 := if_neg h

/-- Some ASCII glyphs on one line are written as the text of a token. -/
structure Written (kind : TokenKind) (span : List Glyph) (text : String) : Prop where
  text_eq : text.toList = (span.map Glyph.read).map (lowered kind)
  ascii : ∀ g ∈ span, g.IsAscii
  line : ∀ g ∈ span, g.read ≠ '\n'

/-- Two texts that are written are written one behind the other. -/
theorem Written.append {kind : TokenKind} {s t : List Glyph} {a b : String} (hs : Written kind s a)
    (ht : Written kind t b) : Written kind (s ++ t) (a ++ b) := by
  refine ⟨?_, ?_, ?_⟩
  · rw [String.toList_append, hs.text_eq, ht.text_eq, List.map_append, List.map_append]
  · exact List.forall_mem_append.mpr ⟨hs.ascii, ht.ascii⟩
  · exact List.forall_mem_append.mpr ⟨hs.line, ht.line⟩

/-- What is written is as long as it is kept. -/
theorem Written.utf8ByteSize {kind : TokenKind} {s : List Glyph} {text : String}
    (h : Written kind s text) : text.utf8ByteSize = s.length := by
  rw [utf8ByteSize_of_ascii, h.text_eq, List.length_map, List.length_map]
  intro c hc
  rw [h.text_eq, List.map_map, List.mem_map] at hc
  obtain ⟨g, hg, rfl⟩ := hc
  obtain ⟨d, rfl, hd⟩ := h.ascii g hg
  show (lowered kind d).toNat < 0x80
  unfold lowered
  split
  · decide
  · split
    · decide
    · exact hd

/-- A token that is written at the start of some glyphs is cut off them. -/
theorem Written.cuts {kind : TokenKind} {s : List Glyph} {text : String} (h : Written kind s text)
    (pos : Position) (hkind : kind ≠ .pir) (hne : s ≠ []) (rest : List Glyph) :
    (Scan.found (tokenAt pos kind text) rest (pos.right text.utf8ByteSize)).Cuts pos (s ++ rest) := by
  refine ⟨s, [], by simp, hne, spells_tokenAt hkind h.text_eq, rfl, .inl rfl, fun _ => ?_⟩
  rw [h.utf8ByteSize, List.append_nil, Position.afterAll_of_line pos h.line]

/-- A character that is kept as it is, and on the same line. -/
def Kept (kind : TokenKind) (c : Char) : Prop := lowered kind c = c ∧ c ≠ '\n'

/-- Characters that are kept are written as they are. -/
theorem written_of_kept {kind : TokenKind} {s : List Glyph} (hascii : ∀ g ∈ s, g.IsAscii)
    (hkept : ∀ g ∈ s, Kept kind g.read) : Written kind s (Glyph.text s) := by
  refine ⟨?_, hascii, fun g hg => (hkept g hg).2⟩
  rw [Glyph.text, String.toList_ofList, List.map_map]
  exact List.map_congr_left fun g hg => (hkept g hg).1.symm

theorem lowered_of_ne {kind : TokenKind} (hint : kind ≠ .int) (hfloat : kind ≠ .float) (c : Char) :
    lowered kind c = c := by
  simp [lowered, hint, hfloat]

/-- Digits are kept. -/
theorem kept_of_digit {c : Char} (h : isDigit c = true) (kind : TokenKind) : Kept kind c := by
  have hne : c ≠ 'X' ∧ c ≠ 'E' ∧ c ≠ '\n' := by
    refine ⟨?_, ?_, ?_⟩ <;> (rintro rfl; revert h; decide)
  exact ⟨by simp [lowered, hne.1, hne.2.1], hne.2.2⟩

/-- Digits of numbers in hexadecimal are kept. -/
theorem kept_of_hexDigit {c : Char} (h : isHexDigit c = true) : Kept .int c := by
  have hne : c ≠ 'X' ∧ c ≠ '\n' := by
    refine ⟨?_, ?_⟩ <;> (rintro rfl; revert h; decide)
  exact ⟨by simp [lowered, hne.1], hne.2⟩

/-- A run is a text of characters of one class, with the rest behind it. -/
theorem run_spec {p : Char → Bool} {s body rest : List Glyph} (h : run p s = (body, rest)) :
    s = body ++ rest ∧ ∀ g ∈ body, p g.read = true := by
  cases h
  refine ⟨List.takeWhile_append_dropWhile.symm, fun g hg => ?_⟩
  exact List.all_eq_true.mp (List.all_takeWhile ..) g hg

/-! ## Tokens on one line

The functions for names, operators, punctuation and line comments take characters that stand on one
line, and keep them as they are. -/

/-- Operators have one to three characters, and none is a line feed. -/
theorem operators_spec {op : String} (h : op ∈ operators) :
    op.toList ≠ [] ∧ op.length ≤ 3 ∧ '\n' ∉ op.toList := by
  revert op
  decide

variable {g : Glyph} {s : List Glyph}

section Ascii

variable (hascii : ∀ h ∈ g :: s, h.IsAscii)

include hascii

/-- A token of one character cuts it off. -/
theorem cuts_single {kind : TokenKind} (hint : kind ≠ .int) (hfloat : kind ≠ .float)
    (hpir : kind ≠ .pir) : (single pos kind g.read s).Cuts pos (g :: s) := by
  refine ⟨[g], [], rfl, List.cons_ne_nil _ _, spells_tokenAt hpir ?_, rfl, .inl rfl, fun _ => ?_⟩
  · rw [List.map_singleton, List.map_singleton, lowered_of_ne hint hfloat]
    simp
  · obtain ⟨c, rfl, -⟩ := hascii g List.mem_cons_self
    rfl

/-- A run of characters of one class cuts itself off. -/
theorem cuts_scanRun {kind : TokenKind} {p : Char → Bool} (hint : kind ≠ .int)
    (hfloat : kind ≠ .float) (hpir : kind ≠ .pir) (hp : p '\n' = false) (hg : g.read ≠ '\n') :
    (scanRun ending pos kind p g s).Cuts pos (g :: s) := by
  unfold scanRun
  rcases hrun : run p s with ⟨body, rest⟩
  obtain ⟨rfl, hbody⟩ := run_spec hrun
  have hwritten : Written kind (g :: body) (Glyph.text (g :: body)) := by
    refine written_of_kept (fun h hh => hascii h ?_) fun h hh => ⟨lowered_of_ne hint hfloat _, ?_⟩
    · exact List.mem_append_left rest hh
    · rcases List.mem_cons.mp hh with rfl | hh
      · exact hg
      · intro hnl
        have hclass := hbody h hh
        rw [hnl, hp] at hclass
        cases hclass
  exact cuts_settle (hwritten.cuts pos hpir (List.cons_ne_nil _ _) rest)

/-- A global cuts off its dollar sign and the name behind it. -/
theorem cuts_scanGlobal (hg : g.read = '$') : (scanGlobal ending pos s).Cuts pos (g :: s) := by
  obtain ⟨c, rfl, -⟩ := hascii g List.mem_cons_self
  obtain rfl : c = _ := hg
  unfold scanGlobal
  split
  · trivial
  · exact cuts_scanRun hascii (by decide) (by decide) (by decide) (by decide) (by decide)

/-- An operator cuts off the longest text that is one. -/
theorem cuts_scanOp : (scanOp pos g.read s).Cuts pos (g :: s) := by
  unfold scanOp
  simp only
  split
  · rename_i op hop
    obtain ⟨hne, hlength, hline⟩ := operators_spec (List.mem_of_find?_eq_some hop)
    have hprefix : op.toList <+: g.read :: ahead 2 s := by simpa using List.find?_some hop
    -- the operator is what stands at the front, and all of it is ASCII
    have htake : op.toList = ((g :: s).take op.length).map Glyph.read := by
      rw [List.prefix_iff_eq_take.mp hprefix, ahead, ← List.map_cons (f := Glyph.read),
        ← List.take_succ_cons (i := 2), ← List.map_take, List.take_take]
      simp [String.length_toList]
      omega
    have hwritten : Written .op ((g :: s).take op.length) (Glyph.text ((g :: s).take op.length)) := by
      refine written_of_kept (fun h hh => hascii h (List.mem_of_mem_take hh)) fun h hh => ?_
      refine ⟨lowered_of_ne (by decide) (by decide) _, fun hnl => hline ?_⟩
      rw [htake, ← hnl]
      exact List.mem_map_of_mem hh
    rw [Glyph.text, ← htake, String.ofList_toList] at hwritten
    have hsize : op.length = op.utf8ByteSize := by
      rw [hwritten.utf8ByteSize, ← List.length_map (f := Glyph.read), ← htake, String.length_toList]
    have hrest : s.drop (op.length - 1) = (g :: s).drop op.length := by
      have hpos : 0 < op.length := by
        rw [← String.length_toList]
        exact List.length_pos_iff.mpr hne
      obtain ⟨n, hn⟩ : ∃ n, op.length = n + 1 := ⟨op.length - 1, by omega⟩
      rw [hn]
      rfl
    have hspan : (g :: s).take op.length ≠ [] := by
      rintro hnil
      rw [hnil] at htake
      exact hne htake
    have hcuts := hwritten.cuts pos (by decide) hspan ((g :: s).drop op.length)
    rwa [List.take_append_drop, ← hrest, ← hsize] at hcuts
  · trivial

/-- A comment cuts off the rest of its line. -/
theorem cuts_scanLineComment (hg : g.read = '#') :
    (scanLineComment ending pos s).Cuts pos (g :: s) := by
  obtain ⟨c, rfl, -⟩ := hascii g List.mem_cons_self
  obtain rfl : c = _ := hg
  unfold scanLineComment
  rcases hrun : run (· ≠ '\n') s with ⟨body, rest⟩
  obtain ⟨rfl, hbody⟩ := run_spec hrun
  -- a comment ends in front of the line feed, so it is written on one line
  have hwritten : Written .comment (.char '#' :: body) (Glyph.text (.char '#' :: body)) := by
    refine written_of_kept (fun h hh => hascii h ?_) fun h hh =>
      ⟨lowered_of_ne (by decide) (by decide) _, ?_⟩
    · exact List.mem_append_left rest hh
    · rcases List.mem_cons.mp hh with rfl | hh
      · decide
      · simpa using hbody h hh
  refine cuts_settle ⟨.char '#' :: body, [], by simp, List.cons_ne_nil _ _, ?_, rfl, .inl rfl, fun _ => ?_⟩
  · simp [Lexeme.Spells, Glyph.ofString, Glyph.text, Glyph.read]
  · rw [hwritten.utf8ByteSize, List.append_nil, Position.afterAll_of_line pos hwritten.line]

end Ascii

/-! ## Numbers

A number is put together from its parts, so its text is written part by part. Only the letters in
front of hexadecimal digits and of an exponent may differ from the source. -/

/-- A sign is a character that is kept, or there is none. -/
theorem takeSign_spec {sign rest : List Glyph} (h : takeSign s = (sign, rest)) :
    s = sign ++ rest ∧ ∀ g ∈ sign, Kept .float g.read := by
  unfold takeSign at h
  split at h
  · cases h
    exact ⟨rfl, nofun⟩
  · split at h
    · rename_i hsign
      cases h
      simp only [Bool.or_eq_true, decide_eq_true_eq] at hsign
      refine ⟨rfl, fun g hg => ?_⟩
      obtain rfl := List.mem_singleton.mp hg
      rcases hsign with hsign | hsign <;> rw [hsign] <;> exact ⟨rfl, by decide⟩
    · cases h
      exact ⟨rfl, nofun⟩

/-- Behind a mantissa that is written, an exponent is cut off together with it. -/
theorem cuts_scanExponent {span : List Glyph} {mantissa : String}
    (hmantissa : Written .float span mantissa) (hg : g.read = 'e' ∨ g.read = 'E')
    (hascii : ∀ h ∈ g :: s, h.IsAscii) :
    (scanExponent ending pos mantissa s).Cuts pos (span ++ g :: s) := by
  unfold scanExponent
  rcases hsign : takeSign s with ⟨sign, s'⟩
  rcases hrun : run isDigit s' with ⟨digits, rest⟩
  simp only [hrun]
  obtain ⟨rfl, hdigits⟩ := run_spec hrun
  obtain ⟨rfl, hkept⟩ := takeSign_spec hsign
  refine cuts_ite (fun _ => trivial) fun _ => cuts_settle ?_
  -- the letter may be a large one in the source
  have hletter : Written .float [g] "e" := by
    refine ⟨?_, by simpa using hascii g List.mem_cons_self, ?_⟩ <;> rcases hg with hg | hg <;>
      simp [hg, lowered]
  have hrest : Written .float (sign ++ digits) (Glyph.text (sign ++ digits)) := by
    refine written_of_kept (fun h hh => hascii h ?_) ?_
    · rw [← List.append_assoc]
      exact List.mem_cons_of_mem _ (List.mem_append_left _ hh)
    · exact List.forall_mem_append.mpr ⟨hkept, fun h hh => kept_of_digit (hdigits h hh) _⟩
  have hcuts := ((hmantissa.append hletter).append hrest).cuts pos (by decide) (by simp) rest
  simpa using hcuts

/-- A mantissa that is written is cut off, with an exponent if there is one. -/
theorem cuts_scanMantissa (ending : Ending) (pos : Position) {kind : TokenKind} {span : List Glyph}
    {text : String} (rest : List Glyph)
    (hkind : kind ≠ .pir) (hspan : span ≠ []) (htext : Written kind span text)
    (hfloat : Written .float span text) (hascii : ∀ h ∈ rest, h.IsAscii) :
    (scanMantissa ending pos kind text rest).Cuts pos (span ++ rest) := by
  unfold scanMantissa
  split
  · refine cuts_ite (fun hletter => ?_) fun _ => htext.cuts pos hkind hspan _
    exact cuts_scanExponent hfloat (by simpa using hletter) hascii
  · exact cuts_settle (htext.cuts pos hkind hspan [])

/-- A number in hexadecimal cuts off its digits and the two characters in front of them. -/
theorem cuts_scanHex {zero : Glyph} (hzero : zero.read = '0') (hg : g.read = 'x' ∨ g.read = 'X')
    (hascii : ∀ h ∈ zero :: g :: s, h.IsAscii) :
    (scanHex ending pos s).Cuts pos (zero :: g :: s) := by
  unfold scanHex
  rcases hrun : run isHexDigit s with ⟨digits, rest⟩
  obtain ⟨rfl, hdigits⟩ := run_spec hrun
  refine cuts_ite (fun _ => trivial) fun _ => cuts_settle ?_
  have hopening : Written .int [zero, g] "0x" := by
    refine ⟨?_, fun h hh => hascii h ?_, ?_⟩
    · rcases hg with hg | hg <;> simp [hzero, hg, lowered]
    · show h ∈ [zero, g] ++ (digits ++ rest)
      exact List.mem_append_left _ hh
    · rcases hg with hg | hg <;> simp [hzero, hg]
  have hrest : Written .int digits (Glyph.text digits) :=
    written_of_kept (fun h hh => hascii h (by simp [hh])) fun h hh => kept_of_hexDigit (hdigits h hh)
  exact (hopening.append hrest).cuts pos (by decide) (by simp) rest

/-- A number cuts off all its parts. -/
theorem cuts_scanNumber (hg : isDigit g.read = true) (hascii : ∀ h ∈ g :: s, h.IsAscii) :
    (scanNumber ending pos g s).Cuts pos (g :: s) := by
  unfold scanNumber
  rcases hrun : run (fun c => isDigit c || c = '_') s with ⟨digits, rest⟩
  obtain ⟨rfl, hdigits⟩ := run_spec hrun
  have hwhole : ∀ kind, Written kind (g :: digits) (Glyph.text (g :: digits)) := by
    intro kind
    refine written_of_kept (fun h hh => hascii h (List.mem_append_left rest hh)) fun h hh => ?_
    rcases List.mem_cons.mp hh with rfl | hh
    · exact kept_of_digit hg kind
    · have hclass := hdigits h hh
      simp only [Bool.or_eq_true, decide_eq_true_eq] at hclass
      rcases hclass with hdigit | hunderscore
      · exact kept_of_digit hdigit kind
      · rw [hunderscore]
        cases kind <;> exact ⟨rfl, by decide⟩
  have hrest : ∀ h ∈ rest, h.IsAscii := fun h hh => hascii h (by simp [hh])
  simp only
  split
  · exact cuts_settle ((hwhole .int).cuts pos (by decide) (List.cons_ne_nil _ _) [])
  · rename_i g' after
    refine cuts_ite (fun hletter => ?_) fun _ => cuts_ite (fun hpoint => ?_) fun _ => ?_
    · refine cuts_ite (fun hzero => ?_) fun _ => trivial
      -- the digits before the letter are a single zero
      have htext : (g :: digits).map Glyph.read = ['0'] := by
        rw [← String.toList_ofList (l := (g :: digits).map Glyph.read)]
        exact congrArg String.toList hzero
      cases digits with
      | nil => exact cuts_scanHex (by simpa using htext) (by simpa using hletter) hascii
      | cons => simp at htext
    · rcases hrun' : run isDigit after with ⟨fraction, rest'⟩
      obtain ⟨rfl, hfraction⟩ := run_spec hrun'
      refine cuts_ite (fun _ => (hwhole .int).cuts pos (by decide) (List.cons_ne_nil _ _) _) fun _ => ?_
      have hdot : Written .float [g'] "." := by
        have hread : g'.read = '.' := by simpa using hpoint
        exact ⟨by simp [hread, lowered], by simpa using hrest g' List.mem_cons_self, by simp [hread]⟩
      have hdigits' : Written .float fraction (Glyph.text fraction) :=
        written_of_kept (fun h hh => hrest h (by simp [hh])) fun h hh => kept_of_digit (hfraction h hh) _
      have hnumber := ((hwhole .float).append hdot).append hdigits'
      have hcuts := cuts_scanMantissa ending pos rest' (by decide) (by simp) hnumber hnumber fun h hh =>
        hrest h (by simp [hh])
      simpa using hcuts
    · exact cuts_scanMantissa _ _ _ (by decide) (List.cons_ne_nil _ _) (hwhole .int) (hwhole .float) hrest

/-! ## Lexemes that may take several lines

Strings, target code and block comments hold line feeds, so their places are those behind a text and
not to the right of one. -/

/-- The inside of a string with its mark, and the rest, make up the input. -/
theorem takeQuoted_append {mark : Char} {escaped : Bool} {body rest : List Glyph}
    (h : takeQuoted mark escaped s = some (body, rest)) : s = body ++ rest := by
  induction s generalizing escaped body with
  | nil => cases h
  | cons g s ih =>
    -- a character that does not end the string goes to its inside
    have hinner : ∀ e, (takeQuoted mark e s).map (fun p => (g :: p.1, p.2)) = some (body, rest) →
        g :: s = body ++ rest := by
      intro e he
      simp only [Option.map_eq_some_iff, Prod.mk.injEq, Prod.exists] at he
      obtain ⟨b, r, hb, rfl, rfl⟩ := he
      rw [ih hb, List.cons_append]
    unfold takeQuoted at h
    split at h
    · exact hinner _ h
    · split at h
      · cases h
        rfl
      · exact hinner _ h

/-- A string cuts off itself and its marks. -/
theorem cuts_scanString (hascii : g.IsAscii) (hline : g.read ≠ '\n') :
    (scanString ending pos g.read s).Cuts pos (g :: s) := by
  unfold scanString
  split
  · trivial
  · rename_i body rest h
    obtain rfl := takeQuoted_append h
    obtain ⟨c, rfl, -⟩ := hascii
    refine ⟨.char c :: body, [], by simp, List.cons_ne_nil _ _, spells_tokenAt (by decide) ?_, rfl,
      .inl rfl, fun _ => ?_⟩
    · rw [Glyph.text, String.toList_ofList]
      exact (List.map_id'' (lowered_of_ne (by decide) (by decide)) _).symm
    · rw [List.append_nil, ← after_of_ne hline]
      rfl

/-- The inside of target code, its closing brace and the rest make up the input. -/
theorem takeBraced_append {depth : Nat} {body rest : List Glyph}
    (h : takeBraced depth s = some (body, rest)) :
    ∃ brace, s = body ++ brace :: rest ∧ brace.read = '\x7d' := by
  induction s generalizing depth body with
  | nil => cases h
  | cons g s ih =>
    -- every glyph but the last brace goes to the body
    have hinner : ∀ d, (takeBraced d s).map (fun p => (g :: p.1, p.2)) = some (body, rest) →
        ∃ brace, g :: s = body ++ brace :: rest ∧ brace.read = '\x7d' := by
      intro d hd
      simp only [Option.map_eq_some_iff, Prod.mk.injEq, Prod.exists] at hd
      obtain ⟨b, r, hb, rfl, rfl⟩ := hd
      obtain ⟨brace, hs, hbrace⟩ := ih hb
      exact ⟨brace, by rw [hs, List.cons_append], hbrace⟩
    unfold takeBraced at h
    simp only at h
    split at h
    · exact hinner _ h
    · split at h
      · rename_i hbrace
        split at h
        iterate 2
          cases h
          exact ⟨g, rfl, hbrace⟩
        exact hinner _ h
      · exact hinner _ h

theorem startsWith_spec {word : String} (h : startsWith word s = true) :
    (s.take word.length).map Glyph.read = word.toList := by
  simpa [startsWith, ahead] using h

/-- The glyphs of a word, none of which starts a line, take one column each. -/
theorem afterAll_word {t : List Glyph} {word : List Char} (h : t.map Glyph.read = word)
    (hline : '\n' ∉ word) : pos.afterAll t = pos.right word.length := by
  rw [Position.afterAll_of_line, ← h, List.length_map]
  intro g hg hnl
  apply hline
  rw [← h, ← hnl]
  exact List.mem_map_of_mem hg

/-- Target code cuts off itself and its braces. -/
theorem cuts_scanPir (hg : g.read = '%') (hword : startsWith "pir\x7b" s = true) :
    (scanPir ending pos (s.drop 4)).Cuts pos (g :: s) := by
  unfold scanPir
  split
  · trivial
  · rename_i body rest h
    obtain ⟨brace, hs, hbrace⟩ := takeBraced_append h
    -- the word was seen ahead, so the four glyphs behind the first one are known
    have hopening : (g :: s.take 4).map Glyph.read = ['%', 'p', 'i', 'r', '\x7b'] := by
      have hfour : (s.take 4).map Glyph.read = ['p', 'i', 'r', '\x7b'] := startsWith_spec hword
      rw [List.map_cons, hg, hfour]
    refine ⟨g :: s.take 4 ++ body ++ [brace], [], ?_, by simp, ?_, rfl, .inl rfl, fun _ => ?_⟩
    · have hsplit := List.take_append_drop 4 s
      rw [hs] at hsplit
      simpa using hsplit.symm
    · show _ = _
      rw [List.map_append, List.map_append, hopening, List.map_singleton, hbrace, Glyph.text,
        String.toList_ofList]
    · rw [List.append_nil, Position.afterAll_append, Position.afterAll_append,
        afterAll_word hopening (by decide)]
      exact (after_of_ne (by rw [hbrace]; decide)).symm

/-- A line and the rest make up the input. -/
theorem takeLine_append (s : List Glyph) : (takeLine s).1 ++ (takeLine s).2 = s := by
  induction s with
  | nil => rfl
  | cons g s ih =>
    unfold takeLine
    split
    · rfl
    · simp [ih]

/-- A line that is not empty is taken with the line feed that ends it, unless the source ends first. -/
theorem takeLine_spec (s : List Glyph) (hg : g.read ≠ '\n') :
    ∃ (line : List Glyph) (last : Glyph), last.read ≠ '\n' ∧
      ((∃ nl : Glyph, nl.read = '\n' ∧ (takeLine (g :: s)).1 = line ++ [last] ++ [nl]) ∨
        (takeLine (g :: s)).1 = line ++ [last] ∧ (takeLine (g :: s)).2 = []) := by
  have hcons : takeLine (g :: s) = (g :: (takeLine s).1, (takeLine s).2) := by
    rw [takeLine, if_neg hg]
  rw [hcons]
  -- on the glyphs behind the first, which is no line feed
  induction s generalizing g with
  | nil => exact ⟨[], g, hg, .inr ⟨rfl, rfl⟩⟩
  | cons h s ih =>
    by_cases hnl : h.read = '\n'
    · have hend : takeLine (h :: s) = ([h], s) := by rw [takeLine, if_pos hnl]
      rw [hend]
      exact ⟨[], g, hg, .inl ⟨h, hnl, rfl⟩⟩
    · have hrest : takeLine (h :: s) = (h :: (takeLine s).1, (takeLine s).2) := by
        rw [takeLine, if_neg hnl]
      rw [hrest]
      obtain ⟨line, last, hlast, hend⟩ := ih hnl hrest
      refine ⟨g :: line, last, hlast, hend.imp ?_ ?_⟩
      · rintro ⟨nl, hread, heq⟩
        exact ⟨nl, hread, congrArg (g :: ·) heq⟩
      · rintro ⟨heq, hnil⟩
        exact ⟨congrArg (g :: ·) heq, hnil⟩

/-- A block ends with a line that starts with an equals sign. -/
theorem takeBlock_spec {lineStart : Bool} {body rest : List Glyph}
    (h : takeBlock lineStart s = some (body, rest)) :
    ∃ front last, s = front ++ last ∧ body = front ++ (takeLine last).1 ∧ rest = (takeLine last).2 ∧
      ∃ g after, last = g :: after ∧ g.read = '=' := by
  -- on the glyphs: at the start of a line the end may stand, any other glyph is inside
  induction s generalizing lineStart body with
  | nil => cases h
  | cons g s ih =>
    unfold takeBlock at h
    split at h
    · rename_i hend
      injection h with h
      rw [Prod.ext_iff] at h
      obtain ⟨rfl, rfl⟩ := h
      have hword := startsWith_spec (Bool.and_eq_true_iff.mp hend).2
      exact ⟨[], g :: s, rfl, rfl, rfl, g, s, rfl, (List.cons.inj hword).1⟩
    · simp only [Option.map_eq_some_iff, Prod.mk.injEq, Prod.exists] at h
      obtain ⟨b, r, hb, rfl, rfl⟩ := h
      obtain ⟨front, last, rfl, rfl, hrest, hlast⟩ := ih hb
      exact ⟨g :: front, last, rfl, rfl, hrest, hlast⟩

/-- The line feed at the end of a block is not part of its text. -/
theorem trimmed_of_line (s : List Glyph) {last : Glyph} (hlast : last.read ≠ '\n') :
    ((s ++ [last]).reverse.dropWhile (·.read = '\n')).reverse = s ++ [last] := by
  simp [hlast]

/-- A block comment cuts itself off, and passes the line feed behind its end. -/
theorem cuts_scanBlockComment (hg : g.read = '=') :
    (scanBlockComment ending pos g s).Cuts pos (g :: s) := by
  have hne : g.read ≠ '\n' := by rw [hg]; decide
  unfold scanBlockComment
  split
  · trivial
  · rename_i body rest h
    -- the comment is its lines up to the one with `=end`, which may lack a line feed
    obtain ⟨front, _, rfl, rfl, rfl, d, after, rfl, hd⟩ := takeBlock_spec h
    obtain ⟨line, last, hlast, hend⟩ := takeLine_spec after (g := d) (by rw [hd]; decide)
    have hsource := takeLine_append (d :: after)
    rcases hend with ⟨nl, hnl, hline⟩ | ⟨hline, hrest⟩
    -- the line feed behind the comment belongs to the gap that follows
    · have htrimmed : ((g :: (front ++ (line ++ [last] ++ [nl]))).reverse.dropWhile
          (·.read = '\n')).reverse = g :: (front ++ line) ++ [last] := by
        rw [← trimmed_of_line (g :: (front ++ line)) hlast]
        simp [hnl]
      simp only [hline, htrimmed]
      rw [hline] at hsource
      have hlast? : (front ++ (line ++ [last] ++ [nl])).getLast? = some nl := by simp
      rw [hlast?]
      simp only
      rw [if_pos hnl]
      refine ⟨g :: (front ++ line) ++ [last], [nl], ?_, by simp, rfl, rfl, .inr ⟨?_, by simp [hnl]⟩,
        fun _ => ?_⟩
      · simpa using congrArg (fun l => g :: (front ++ l)) hsource.symm
      · simp [Lexeme.isBlock, hg]
      · rw [Position.afterAll_below pos hnl]
        simp [hne]
    · simp only [hline, hrest]
      rw [hline, hrest] at hsource
      have hlast? : (front ++ (line ++ [last])).getLast? = some last := by simp
      rw [hlast?]
      simp only
      rw [if_neg hlast]
      refine cuts_settle ⟨g :: (front ++ line) ++ [last], [], ?_, by simp, ?_, rfl, .inl rfl, nofun⟩
      · simpa using congrArg (fun l => g :: (front ++ l)) hsource.symm
      · show List.map _ _ = _
        rw [← List.append_assoc, ← List.cons_append, trimmed_of_line _ hlast]

/-! ## One step

What starts a lexeme decides which of the functions above takes it, and blanks in front of it are
passed. -/

/-- A backslash at the end of a line is skipped with its line feed. -/
theorem cuts_continuation (hg : g.read = '\\') (hword : startsWith "\n" s = true) :
    (Scan.skipped (s.drop 1) (pos.below 1)).Cuts pos (g :: s) := by
  have hone : (s.take 1).map Glyph.read = ['\n'] := startsWith_spec hword
  cases s with
  | nil => cases hone
  | cons nl s =>
    have hnl : nl.read = '\n' := (List.cons.inj hone).1
    refine ⟨[g, nl], rfl, by simp [hg, hnl], ?_⟩
    show _ = (pos.after g).after nl
    rw [after_of_ne (g := g) (by rw [hg]; decide), Position.after, if_pos hnl]
    rfl

/-- A step at the start of a lexeme cuts its span off. -/
theorem cuts_scanLexeme (hascii : ∀ h ∈ g :: s, h.IsAscii) :
    (scanLexeme ending pos g s).Cuts pos (g :: s) := by
  have hg := hascii g List.mem_cons_self
  unfold scanLexeme
  simp only
  -- one case for each kind of lexeme, in the order in which they are tried
  refine cuts_ite (fun _ => cuts_single hascii (by decide) (by decide) (by decide)) fun h => ?_
  have hline : g.read ≠ '\n' := fun hnl => h (by simp [hnl])
  refine cuts_ite (fun h => ?_) fun _ => ?_
  · simp only [Bool.and_eq_true, decide_eq_true_eq] at h
    exact cuts_continuation h.1 h.2
  refine cuts_ite (fun h => ?_) fun _ => ?_
  · simp only [Bool.and_eq_true, decide_eq_true_eq] at h
    exact cuts_scanBlockComment h.1.1
  refine cuts_ite (fun _ => ?_) fun _ => ?_
  · exact cuts_scanRun hascii (by decide) (by decide) (by decide) (by decide) hline
  refine cuts_ite (fun h => cuts_scanGlobal hascii (by simpa using h)) fun _ => ?_
  refine cuts_ite (fun h => ?_) fun _ => ?_
  · simp only [Bool.and_eq_true, decide_eq_true_eq] at h
    exact cuts_scanPir h.1 h.2
  refine cuts_ite (fun _ => cuts_scanOp hascii) fun _ => ?_
  refine cuts_ite (fun _ => cuts_single hascii (by decide) (by decide) (by decide)) fun _ => ?_
  refine cuts_ite (fun _ => cuts_single hascii (by decide) (by decide) (by decide)) fun _ => ?_
  refine cuts_ite (fun _ => cuts_single hascii (by decide) (by decide) (by decide)) fun _ => ?_
  refine cuts_ite (fun h => cuts_scanNumber h hascii) fun _ => ?_
  refine cuts_ite (fun _ => cuts_scanString hg hline) fun _ => ?_
  refine cuts_ite (fun h => cuts_scanLineComment hascii (by simpa using h)) fun _ => trivial

/-- The blanks that the lexer passes between lexemes are the space, the carriage return, the form feed,
the tab and the vertical tab. -/
theorem isBlank_iff {c : Char} :
    isBlank c = true ↔ c ∈ [' ', '\r', '\x0C', '\t', '\x0B'] := decide_eq_true_iff

/-- A step passes the blanks, and cuts the lexeme behind them off. -/
theorem cuts_scan (ending : Ending) (s : List Glyph) (pos : Position)
    (hascii : ∀ g ∈ s, g.IsAscii) :
    ∃ blanks rest, s = blanks ++ rest ∧
      (∀ g ∈ blanks, g.read ∈ [' ', '\r', '\x0C', '\t', '\x0B']) ∧ (scan ending s pos).Cuts (pos.afterAll blanks) rest := by
  rcases hrun : run isBlank s with ⟨blanks, rest⟩
  obtain ⟨rfl, hblanks⟩ := run_spec hrun
  refine ⟨blanks, rest, rfl, fun g hg => isBlank_iff.mp (hblanks g hg), ?_⟩
  -- there is no line feed among blanks, so the place moves to the right
  have hpos : pos.afterAll blanks = pos.right blanks.length := by
    refine Position.afterAll_of_line pos fun g hg hnl => ?_
    have hblank := hblanks g hg
    rw [hnl] at hblank
    revert hblank
    decide
  rw [hpos]
  unfold scan
  rw [hrun]
  cases rest with
  | nil => cases ending <;> first | exact rfl | trivial
  | cons g s => exact cuts_scanLexeme fun h hh => hascii h (List.mem_append_right _ hh)

end Lexer

/-! ## Sources

By induction on the number of glyphs, as every step leaves fewer of them. The place at which a step
starts is that of the text in front of it, which carries the induction. -/

/-- A text stands between lexemes: it consists of blanks (space, carriage return, form feed, tab and
vertical tab) and line continuations, and it may start with the line feed that ends a block comment. -/
def IsGap (prev : Option Lexeme) (gap : List Char) : Prop :=
  ∃ first pieces, gap = first ++ List.flatten pieces ∧
    (first = [] ∨ first = ['\n'] ∧ prev.any Lexeme.isBlock = true) ∧
    ∀ piece ∈ pieces,
      piece = ['\\', '\n'] ∨ ∃ c ∈ [' ', '\r', '\x0C', '\t', '\x0B'], piece = [c]

/-- A lexeme with its span, and the gap in front of it. -/
structure Tile where
  gap : List Char
  span : List Char
  lexeme : Lexeme

/-- The text of a tile. -/
def Tile.text (t : Tile) : List Char := t.gap ++ t.span

/-- A tile stands behind a text, and behind the lexeme that ends it: its span spells its lexeme, which
has the line and the column at which the span begins. -/
structure Tile.Placed (before : List Char) (prev : Option Lexeme) (t : Tile) : Prop where
  gap : IsGap prev t.gap
  spells : t.lexeme.Spells t.span
  ne_nil : t.span ≠ []
  line_eq : t.lexeme.place.line = 1 + (before ++ t.gap).count '\n'
  col_eq : t.lexeme.place.col = 1 + ((before ++ t.gap).reverse.takeWhile (· ≠ '\n')).length

theorem IsGap.nil (prev : Option Lexeme) : IsGap prev [] := ⟨[], [], rfl, .inl rfl, nofun⟩

/-- Blanks and line continuations may be added to a gap. -/
theorem IsGap.append {prev : Option Lexeme} {gap : List Char} (h : IsGap prev gap)
    (pieces : List (List Char))
    (hpieces : ∀ piece ∈ pieces,
      piece = ['\\', '\n'] ∨ ∃ c ∈ [' ', '\r', '\x0C', '\t', '\x0B'], piece = [c]) :
    IsGap prev (gap ++ pieces.flatten) := by
  obtain ⟨first, pieces', rfl, hfirst, hpieces'⟩ := h
  refine ⟨first, pieces' ++ pieces, ?_, hfirst, List.forall_mem_append.mpr ⟨hpieces', hpieces⟩⟩
  rw [List.flatten_append, List.append_assoc]

/-- Blanks may be added to a gap. -/
theorem IsGap.blanks {prev : Option Lexeme} {gap : List Char} (h : IsGap prev gap)
    {blanks : List Glyph}
    (hblanks : ∀ g ∈ blanks, g.read ∈ [' ', '\r', '\x0C', '\t', '\x0B']) :
    IsGap prev (gap ++ blanks.map Glyph.read) := by
  have happend := h.append (blanks.map fun g => [g.read]) fun piece hpiece => by
    obtain ⟨g, hg, rfl⟩ := List.mem_map.mp hpiece
    exact .inr ⟨g.read, hblanks g hg, rfl⟩
  rwa [← List.flatMap_def, ← List.map_eq_flatMap] at happend

/-- Some tiles stand one behind the other, after a text. -/
def Tiled (before : List Char) (prev : Option Lexeme) (tiles : List Tile) : Prop :=
  ∀ pre t post, tiles = pre ++ t :: post →
    t.Placed (before ++ pre.flatMap Tile.text) ((pre.getLast?.map (·.lexeme)).or prev)

theorem Tiled.nil (before : List Char) (prev : Option Lexeme) : Tiled before prev [] := by
  intro pre t post heq
  simp at heq

/-- A tile stands in front of those behind it. -/
theorem Tiled.cons {before : List Char} {prev : Option Lexeme} {t : Tile} {tiles : List Tile}
    (ht : t.Placed before prev) (h : Tiled (before ++ t.text) (some t.lexeme) tiles) :
    Tiled before prev (t :: tiles) := by
  intro pre u post heq
  -- the first tile, or one of those behind it, with the first one in front of what stood before
  cases pre with
  | nil =>
    cases heq
    simpa using ht
  | cons v pre =>
    cases heq
    have hplaced := h pre u post rfl
    rw [List.append_assoc, ← List.flatMap_cons] at hplaced
    cases hlast : pre.getLast? with
    | none =>
      rw [List.getLast?_eq_none_iff] at hlast
      subst hlast
      exact hplaced
    | some w =>
      rw [hlast] at hplaced
      rw [List.getLast?_cons, hlast]
      exact hplaced

/-- Reading from a place on cuts what is left into tiles. `gap` was passed since the last lexeme. -/
theorem tiled_lexFrom (ending : Ending) (s : List Glyph) (pos : Position) :
    ∀ (before gap : List Char) (prev : Option Lexeme), (∀ g ∈ s, g.IsAscii) → IsGap prev gap →
    (s ≠ [] → pos = .ofText (before ++ gap)) → (lexFrom ending s pos).bad = none →
    ∃ tiles last, gap ++ s.map Glyph.read = tiles.flatMap Tile.text ++ last ∧
      tiles.map (·.lexeme) = (lexFrom ending s pos).lexemes ∧ Tiled before prev tiles ∧
      IsGap ((tiles.getLast?.map (·.lexeme)).or prev) last := by
  fun_induction lexFrom ending s pos with
  | case1 s pos hscan =>
    intro before gap prev hascii hgap hpos hbad
    obtain ⟨blanks, rest, rfl, hblanks, hcuts⟩ := cuts_scan ending s pos hascii
    rw [hscan] at hcuts
    -- only blanks are left: they are the last gap
    obtain rfl : rest = [] := hcuts
    rw [List.append_nil]
    exact ⟨[], _, rfl, rfl, .nil before prev, hgap.blanks hblanks⟩
  | case2 s pos b hscan =>
    intro _ _ _ _ _ _ hbad
    cases hbad
  | case3 s pos rest next hscan _ ih =>
    intro before gap prev hascii hgap hpos hbad
    obtain ⟨blanks, taken, rfl, hblanks, hcuts⟩ := cuts_scan ending s pos hascii
    rw [hscan] at hcuts
    obtain ⟨pair, rfl, hpair, hnext⟩ := hcuts
    -- a line continuation extends the gap
    have hne : blanks ++ (pair ++ rest) ≠ [] := by
      rintro hnil
      simp only [List.append_eq_nil_iff] at hnil
      rw [hnil.2.1] at hpair
      cases hpair
    have hgap' : IsGap prev (gap ++ blanks.map Glyph.read ++ pair.map Glyph.read) := by
      have happend := (hgap.blanks hblanks).append [pair.map Glyph.read]
        fun piece hpiece => .inl (by rw [List.mem_singleton.mp hpiece, hpair])
      simpa using happend
    have hnext' : next = .ofText (before ++ (gap ++ blanks.map Glyph.read ++ pair.map Glyph.read)) := by
      rw [hnext, hpos hne, Position.afterAll_ofText, Position.afterAll_ofText]
      simp
    obtain ⟨tiles, last, htext, hlexemes, htiled, hlast⟩ :=
      ih _ _ _ (fun g hg => hascii g (by simp [hg])) hgap' (fun _ => hnext') hbad
    exact ⟨tiles, last, by rw [← htext]; simp, hlexemes, htiled, hlast⟩
  | case4 s pos l rest next hscan _ tail ih =>
    intro before gap prev hascii hgap hpos hbad
    obtain ⟨blanks, taken, rfl, hblanks, hcuts⟩ := cuts_scan ending s pos hascii
    rw [hscan] at hcuts
    obtain ⟨span, passed, rfl, hne, hspells, hplace, hpassed, hnext⟩ := hcuts
    have hpos' := hpos (by simp [hne])
    let tile : Tile := ⟨gap ++ blanks.map Glyph.read, span.map Glyph.read, l⟩
    -- the tile is made of the gap so far and the lexeme, which stands where its position says
    have hat : pos.afterAll blanks = .ofText (before ++ tile.gap) := by
      rw [hpos', Position.afterAll_ofText, List.append_assoc]
    have hplaced : tile.Placed before prev := by
      refine ⟨hgap.blanks hblanks, hspells, by simpa [tile] using hne, ?_, ?_⟩
      · rw [show tile.lexeme.place = _ from hplace.trans hat]
        rfl
      · rw [show tile.lexeme.place = _ from hplace.trans hat]
        rfl
    have hgap' : IsGap (some l) (passed.map Glyph.read) := by
      refine ⟨passed.map Glyph.read, [], by simp, ?_, nofun⟩
      exact hpassed.imp (fun h => by rw [h]; rfl) fun ⟨hblock, hline⟩ => ⟨hline, hblock⟩
    obtain ⟨tiles, last, htext, hlexemes, htiled, hlast⟩ :=
      ih (before ++ tile.text) _ _ (fun g hg => hascii g (by simp [hg])) hgap' (fun hrest => by
        rw [hnext hrest, hat, Position.afterAll_ofText]
        simp [Tile.text, tile]) hbad
    refine ⟨tile :: tiles, last, ?_, by rw [List.map_cons, hlexemes], .cons hplaced htiled, ?_⟩
    · have hflat : (tile :: tiles).flatMap Tile.text ++ last = tile.text ++
          (passed.map Glyph.read ++ rest.map Glyph.read) := by
        rw [htext, List.flatMap_cons, List.append_assoc]
      rw [hflat]
      simp [Tile.text, tile]
    · rw [List.getLast?_cons]
      cases hend : tiles.getLast? with
      | none => simpa [hend] using hlast
      | some t => simpa [hend] using hlast

/-- An ASCII source that is read to its end is cut into the spans of its lexemes, in their order, and
gaps: a span spells its lexeme, whose line is one more than the line feeds before the span and whose
column is one more than the characters since the last of these. -/
theorem lex_tiles {src : Source} (hascii : ∀ g ∈ src.glyphs, g.IsAscii)
    (hbad : (lex src).bad = none) :
    ∃ tiles last, src.glyphs.map Glyph.read = tiles.flatMap Tile.text ++ last ∧
      tiles.map (·.lexeme) = (lex src).lexemes ∧
      (∀ pre t post, tiles = pre ++ t :: post →
        t.Placed (pre.flatMap Tile.text) (pre.getLast?.map (·.lexeme))) ∧
      IsGap (tiles.getLast?.map (·.lexeme)) last := by
  obtain ⟨tiles, last, htext, hlexemes, htiled, hlast⟩ :=
    tiled_lexFrom src.ending src.glyphs {} [] [] none hascii (.nil none) (fun _ => rfl) hbad
  refine ⟨tiles, last, htext, hlexemes, fun pre t post heq => ?_, ?_⟩
  · simpa using htiled pre t post heq
  · simpa using hlast

/-- A source in ASCII characters has ASCII glyphs. -/
theorem Source.isAscii_ofString {s : String} (h : s.toList.all (·.toNat < 0x80) = true) :
    ∀ g ∈ (Source.ofString s).glyphs, g.IsAscii := by
  intro g hg
  obtain ⟨c, hc, rfl⟩ := List.mem_map.mp hg
  exact ⟨c, rfl, of_decide_eq_true (List.all_eq_true.mp h c hc)⟩

/-- A program with a block comment, a line continuation, numbers with large letters and target code. -/
def tiled : Source := .ofString "=begin
note
=end
x = 0XfE + \\
  1.5E3 # sum
%pir\x7b
  noop
\x7d
"

theorem lex_tiles_tiled :
    (∀ g ∈ tiled.glyphs, g.IsAscii) ∧ (lex tiled).bad = none ∧
      ∃ tiles last, tiled.glyphs.map Glyph.read = tiles.flatMap Tile.text ++ last ∧
        tiles.map (·.lexeme) = (lex tiled).lexemes ∧
        (∀ pre t post, tiles = pre ++ t :: post →
          t.Placed (pre.flatMap Tile.text) (pre.getLast?.map (·.lexeme))) ∧
        IsGap (tiles.getLast?.map (·.lexeme)) last := by
  have hascii : ∀ g ∈ tiled.glyphs, g.IsAscii := Source.isAscii_ofString (by decide +kernel)
  have hbad : (lex tiled).bad = none := by decide +kernel
  exact ⟨hascii, hbad, lex_tiles hascii hbad⟩

end ScriptPir

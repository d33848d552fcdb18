import Mathlib.Data.List.Find
import ScriptPir.Token.Lexer

/-!
# Reading a text with more behind it

A text is read up to its end, and again with a line feed and more text behind. A line feed ends whatever
the end of input ends, so both readings find the same lexemes, and then the second one finds the line feed.
There are three exceptions. Text that was never closed may be closed by what comes (`Joined.cut`), and a
line feed may vanish: in the last line of a block comment (`Joined.comment`), or behind a backslash, which
the end of input leaves alone (`Joined.continued`).

Main statement: `Lexer.carries_lexFrom`.

The relation is stated of single steps (`Joined`) and of whole readings (`Carries`). What comes behind
is a parameter of both, so that the lexemes before it cannot depend on it.
-/

namespace ScriptPir

/-- The line feed between a text and what comes behind. -/
def Glyph.lineFeed : Glyph := .char '\n'

@[simp] theorem Glyph.read_lineFeed : lineFeed.read = '\n' := rfl

/-- A text of ASCII characters. -/
def IsAscii (s : String) : Prop := ∀ c ∈ s.toList, c.toNat < 0x80

namespace Lexer

open Glyph (lineFeed)

/-- How a step at the end of a text goes with a line feed and more text behind. -/
inductive Joined : Scan → (List Glyph → Scan) → Prop where
  | finished (t : Token) (pos : Position) (h : t.isNewline = true) :
      Joined .finished fun more => .found (.token t) more pos
  | skipped (rest : List Glyph) (pos : Position) :
      Joined (.skipped rest pos) fun more => .skipped (rest ++ lineFeed :: more) pos
  | found (l : Lexeme) (rest : List Glyph) (pos : Position) :
      Joined (.found l rest pos) fun more => .found l (rest ++ lineFeed :: more) pos
  | comment (body : List Glyph) (start pos pos' : Position) :
      Joined (.found (.comment body start) [] pos) fun more => .found (.comment body start) more pos'
  | continued (start pos : Position) :
      Joined (.bad ⟨[.char '\\'], start, .invalidCharacter '\\'⟩) fun more => .skipped more pos
  | bad (b : BadLexeme) : Joined (.bad b) fun _ => .bad b
  | cut (b : BadLexeme) (h : b.fault = .unterminated) (r : List Glyph → Scan) (close : String)
      (hascii : IsAscii close)
      (hr : ∃ l pos, ∀ more, r (Glyph.ofString close ++ more) = .found l more pos) : Joined (.bad b) r

/-- Steps that are chosen alike with more text and without go alike. -/
theorem joined_ite {c : Prop} [Decidable c] {r s : Scan} {r' s' : List Glyph → Scan}
    (hr : c → Joined r r') (hs : ¬c → Joined s s') :
    Joined (if c then r else s) fun more => if c then r' more else s' more := by
  by_cases h : c
  · simpa [h] using hr h
  · simpa [h] using hs h

/-- Where the source is read to its end, a lexeme may stand last. -/
theorem settle_eof (pos next : Position) (l : Lexeme) (rest : List Glyph) :
    settle .eof pos l rest next = .found l rest next := by
  cases rest <;> rfl

/-- At the end of input a lexeme is settled as with more text behind it. -/
theorem joined_settle (pos next : Position) (l : Lexeme) (rest : List Glyph) :
    Joined (settle .eof pos l rest next) fun more => settle .eof pos l (rest ++ lineFeed :: more) next := by
  simp only [settle_eof]
  exact .found l rest next

/-! ## Runs and words

What the lexer looks ahead at: runs of a class of characters, words and a number of characters. None
of them goes past a line feed, so a text that ends is looked at like one with a line feed behind it. -/

/-- A run of a class without the line feed ends at the end of a text, or before it. -/
theorem run_extend {p : Char → Bool} (hp : p '\n' = false) (s more : List Glyph) :
    run p (s ++ lineFeed :: more) = ((run p s).1, (run p s).2 ++ lineFeed :: more) := by
  have htake : (lineFeed :: more).takeWhile (p ·.read) = [] := List.takeWhile_cons_of_neg (by simp [hp])
  have hdrop : (lineFeed :: more).dropWhile (p ·.read) = lineFeed :: more :=
    List.dropWhile_cons_of_neg (by simp [hp])
  unfold run
  induction s with
  | nil => exact Prod.ext htake hdrop
  | cons g s ih =>
    by_cases hg : p g.read = true
    · simpa [hg] using ih
    · simp [hg]

/-- A word without a line feed stands at the front of a text, whatever comes behind the text. -/
theorem startsWith_extend {word : String} (hword : '\n' ∉ word.toList) (s more : List Glyph) :
    startsWith word (s ++ lineFeed :: more) = startsWith word s := by
  have hlength : word.length = word.toList.length := rfl
  simp only [startsWith, ahead, hlength, decide_eq_decide]
  generalize word.toList = w at hword
  by_cases hle : w.length ≤ s.length
  · rw [List.take_append_of_le_length hle]
  · constructor
    · -- the word would have the line feed in it
      intro heq
      refine absurd ?_ hword
      rw [← heq]
      refine List.mem_map.mpr ⟨lineFeed, ?_, rfl⟩
      rw [List.take_append]
      obtain ⟨k, hk⟩ : ∃ k, w.length - s.length = k + 1 := ⟨w.length - s.length - 1, by omega⟩
      rw [hk, List.take_succ_cons]
      exact List.mem_append_right _ List.mem_cons_self
    · intro heq
      have hshort := congrArg List.length heq
      rw [List.length_map, List.length_take] at hshort
      omega

/-- A word at the front of a text is no longer than the text. -/
theorem length_le_of_startsWith {word : String} {s : List Glyph} (h : startsWith word s = true) :
    word.length ≤ s.length := by
  have hlength := congrArg List.length (of_decide_eq_true h)
  rw [ahead, List.length_map, List.length_take] at hlength
  have hword : word.toList.length = word.length := rfl
  omega

/-- A text starts with a line feed if its first glyph is one. -/
theorem startsWith_cons_lineFeed (g : Glyph) (s : List Glyph) :
    startsWith "\n" (g :: s) = decide (g.read = '\n') := by
  have hlength : "\n".length = 1 := rfl
  simp [startsWith, ahead, hlength]

/-- What is seen ahead stays, and what comes in addition starts with the line feed. -/
theorem ahead_extend (n : Nat) (s more : List Glyph) :
    ahead n (s ++ lineFeed :: more) = ahead n s ∨ ∃ rest, ahead n (s ++ lineFeed :: more) = ahead n s ++ '\n' :: rest := by
  unfold ahead
  by_cases hle : n ≤ s.length
  · rw [List.take_append_of_le_length hle]
    exact .inl rfl
  · right
    obtain ⟨k, hk⟩ : ∃ k, n - s.length = k + 1 := ⟨n - s.length - 1, by omega⟩
    refine ⟨(more.take k).map Glyph.read, ?_⟩
    rw [List.take_append, hk, List.take_succ_cons, List.take_of_length_le (by omega)]
    simp [Glyph.lineFeed, Glyph.read]

/-! ## One step

For each kind of lexeme, in the order of the lexer. For strings and target code it has to be found
out in addition how a text that was left open can be closed: by the mark, or by as many braces as are
open. -/

theorem joined_single (pos : Position) (kind : TokenKind) (c : Char) (s : List Glyph) :
    Joined (single pos kind c s) fun more => single pos kind c (s ++ lineFeed :: more) :=
  .found ..

theorem joined_scanRun (pos : Position) (kind : TokenKind) {p : Char → Bool} (hp : p '\n' = false)
    (g : Glyph) (s : List Glyph) :
    Joined (scanRun .eof pos kind p g s) fun more => scanRun .eof pos kind p g (s ++ lineFeed :: more) := by
  simp only [scanRun, run_extend hp]
  exact joined_settle ..

/-- The name of a global ends where it did; without a name it stays an error. -/
theorem joined_scanGlobal (pos : Position) (s : List Glyph) :
    Joined (scanGlobal .eof pos s) fun more => scanGlobal .eof pos (s ++ lineFeed :: more) := by
  have hstop : isIdentRest '\n' = false := by decide
  unfold scanGlobal
  simp only [run_extend hstop]
  rcases hrun : run isIdentRest s with ⟨name, rest⟩
  cases name with
  | nil => exact .bad _
  | cons g name => exact joined_scanRun pos .global hstop _ s

/-- An operator without a character is no longer for a text that goes on with that character. -/
theorem isPrefixOf_extend {op front : List Char} {d : Char} (hop : d ∉ op) (rest : List Char) :
    op.isPrefixOf (front ++ d :: rest) = op.isPrefixOf front := by
  induction op generalizing front with
  | nil => simp
  | cons c op ih =>
    simp only [List.mem_cons, not_or] at hop
    cases front with
    | nil => simp [List.isPrefixOf, Ne.symm hop.1]
    | cons b front => simp [List.isPrefixOf, ih hop.2]

/-- No operator has a line feed in it, so the longest one that fits is the same. -/
theorem joined_scanOp (pos : Position) (c : Char) (s : List Glyph) :
    Joined (scanOp pos c s) fun more => scanOp pos c (s ++ lineFeed :: more) := by
  have hplain : ∀ op ∈ operators, '\n' ∉ op.toList := by decide
  have hfind : ∀ more, operators.find? (·.toList.isPrefixOf (c :: ahead 2 (s ++ lineFeed :: more))) =
      operators.find? (·.toList.isPrefixOf (c :: ahead 2 s)) := by
    intro more
    rcases ahead_extend 2 s more with heq | ⟨rest, heq⟩
    · rw [heq]
    · rw [heq]
      refine List.find?_congr fun op hop => ?_
      rw [← List.cons_append, isPrefixOf_extend (hplain op hop)]
  unfold scanOp
  simp only [hfind]
  cases hop : operators.find? (·.toList.isPrefixOf (c :: ahead 2 s)) with
  | none => exact .bad _
  | some op =>
    have hfront : op.toList.isPrefixOf (c :: ahead 2 s) = true := List.find?_some (p := fun op : String =>
      op.toList.isPrefixOf (c :: ahead 2 s)) hop
    have hprefix := List.isPrefixOf_iff_prefix.mp hfront
    -- the operator stands in front of the end, so what is dropped is dropped from the text
    have hlength : op.length - 1 ≤ s.length := by
      have hle := hprefix.length_le
      have hop : op.toList.length = op.length := rfl
      simp only [List.length_cons, ahead, List.length_map, List.length_take, hop] at hle
      omega
    simp only [List.drop_append_of_le_length hlength]
    exact .found ..

/-- A comment ends at the end of its line. -/
theorem joined_scanLineComment (pos : Position) (s : List Glyph) :
    Joined (scanLineComment .eof pos s) fun more => scanLineComment .eof pos (s ++ lineFeed :: more) := by
  have hstop : ∀ more, run (fun c => decide (c ≠ '\n')) (s ++ lineFeed :: more) = _ :=
    fun more => run_extend (by decide) s more
  simp only [scanLineComment, hstop]
  exact joined_settle ..

/-- Target code that is closed is closed at the same brace with more text behind. -/
theorem takeBraced_extend {depth : Nat} {s body rest : List Glyph}
    (h : takeBraced depth s = some (body, rest)) (more : List Glyph) :
    takeBraced depth (s ++ more) = some (body, rest ++ more) := by
  induction s generalizing depth body rest with
  | nil => cases h
  | cons g s ih =>
    -- both texts go on alike behind a glyph that closes nothing
    have hinner : ∀ d, (takeBraced d s).map (fun p => (g :: p.1, p.2)) = some (body, rest) →
        (takeBraced d (s ++ more)).map (fun p => (g :: p.1, p.2)) = some (body, rest ++ more) := by
      intro d hd
      obtain ⟨⟨b, r⟩, hb, heq⟩ := Option.map_eq_some_iff.mp hd
      cases heq
      rw [ih hb]
      rfl
    unfold takeBraced at h ⊢
    rw [List.cons_append]
    dsimp only
    split at h
    · rw [if_pos ‹_›]
      exact hinner _ h
    · rw [if_neg ‹_›]
      split at h
      · rw [if_pos ‹_›]
        split at h
        · cases h
          rfl
        · cases h
          rfl
        · exact hinner _ h
      · rw [if_neg ‹_›]
        exact hinner _ h

theorem takeBraced_open {g : Glyph} (hg : g.read = '\x7b') (depth : Nat) (s : List Glyph) :
    takeBraced depth (g :: s) = (takeBraced (depth + 1) s).map fun p => (g :: p.1, p.2) := by
  conv_lhs => unfold takeBraced
  exact if_pos hg

/-- A closing brace goes one level up, but for the last one. -/
theorem takeBraced_close {g : Glyph} (hg : g.read = '\x7d') (depth : Nat) (s : List Glyph) :
    takeBraced (depth + 2) (g :: s) = (takeBraced (depth + 1) s).map fun p => (g :: p.1, p.2) := by
  conv_lhs => unfold takeBraced
  simp [hg]

theorem takeBraced_last {g : Glyph} (hg : g.read = '\x7d') (s : List Glyph) :
    takeBraced 1 (g :: s) = some ([], s) := by
  unfold takeBraced
  simp [hg]

theorem takeBraced_plain {g : Glyph} (hopen : g.read ≠ '\x7b') (hclose : g.read ≠ '\x7d') (depth : Nat)
    (s : List Glyph) : takeBraced depth (g :: s) = (takeBraced depth s).map fun p => (g :: p.1, p.2) := by
  conv_lhs => unfold takeBraced
  simp [hopen, hclose]

/-- As many closing braces as are open end the code. -/
theorem takeBraced_replicate (depth : Nat) (more : List Glyph) :
    takeBraced (depth + 1) (List.replicate (depth + 1) (.char '\x7d') ++ more) =
      some (List.replicate depth (.char '\x7d'), more) := by
  induction depth with
  | zero => exact takeBraced_last rfl more
  | succ depth ih =>
    rw [List.replicate_succ, List.cons_append, takeBraced_close rfl, ih]
    rfl

/-- Braces that were left open can be closed. -/
theorem exists_takeBraced {depth : Nat} {s : List Glyph} (h : takeBraced (depth + 1) s = none) :
    ∃ n body, ∀ more, takeBraced (depth + 1) (s ++ lineFeed :: (List.replicate n (.char '\x7d') ++ more)) =
      some (body, more) := by
  -- on the text; behind it as many braces are closed as are open
  induction s generalizing depth with
  | nil =>
    refine ⟨depth + 1, lineFeed :: List.replicate depth (.char '\x7d'), fun more => ?_⟩
    rw [List.nil_append, takeBraced_plain (by decide) (by decide), takeBraced_replicate]
    rfl
  | cons g s ih =>
    have hinner : ∀ d, (takeBraced (d + 1) s).map (fun p => (g :: p.1, p.2)) = none →
        ∃ n body, ∀ more, (takeBraced (d + 1) (s ++ lineFeed :: (List.replicate n (.char '\x7d') ++ more))).map
          (fun p => (g :: p.1, p.2)) = some (body, more) := by
      intro d hd
      obtain ⟨n, body, hbody⟩ := ih (Option.map_eq_none_iff.mp hd)
      exact ⟨n, g :: body, fun more => by rw [hbody]; rfl⟩
    simp only [List.cons_append]
    by_cases hopen : g.read = '\x7b'
    · simp only [takeBraced_open hopen] at h ⊢
      exact hinner _ h
    by_cases hclose : g.read = '\x7d'
    · cases depth with
      | zero =>
        rw [takeBraced_last hclose] at h
        cases h
      | succ depth =>
        simp only [takeBraced_close hclose] at h ⊢
        exact hinner _ h
    · simp only [takeBraced_plain hopen hclose] at h ⊢
      exact hinner _ h

/-- Target code is closed in the text, or it can be closed by the braces that are open. -/
theorem joined_scanPir (pos : Position) (s : List Glyph) :
    Joined (scanPir .eof pos s) fun more => scanPir .eof pos (s ++ lineFeed :: more) := by
  unfold scanPir
  cases h : takeBraced 1 s with
  | none =>
    obtain ⟨n, body, hclosed⟩ := exists_takeBraced h
    -- the text lacks as many braces as it has open
    refine .cut _ rfl _ (String.ofList (List.replicate n '\x7d')) ?_
      ⟨tokenAt pos .pir (Glyph.text body), ((pos.right pirOpening.length).afterAll body).right 1, fun more => ?_⟩
    · intro c hc
      rw [String.toList_ofList] at hc
      rw [List.eq_of_mem_replicate hc]
      decide
    · simp only [Glyph.ofString, String.toList_ofList, List.map_replicate, hclosed]
  | some r =>
    simp only [takeBraced_extend h]
    exact .found ..

/-- A string that is closed is closed at the same mark with more text behind. -/
theorem takeQuoted_extend {mark : Char} {escaped : Bool} {s body rest : List Glyph}
    (h : takeQuoted mark escaped s = some (body, rest)) (more : List Glyph) :
    takeQuoted mark escaped (s ++ more) = some (body, rest ++ more) := by
  induction s generalizing escaped body rest with
  | nil => cases h
  | cons g s ih =>
    -- both texts go on alike behind a glyph that does not close the string
    have hinner : ∀ e, (takeQuoted mark e s).map (fun p => (g :: p.1, p.2)) = some (body, rest) →
        (takeQuoted mark e (s ++ more)).map (fun p => (g :: p.1, p.2)) = some (body, rest ++ more) := by
      intro e he
      obtain ⟨⟨b, r⟩, hb, heq⟩ := Option.map_eq_some_iff.mp he
      cases heq
      rw [ih hb]
      rfl
    unfold takeQuoted at h
    rw [List.cons_append, takeQuoted]
    split at h
    · rw [if_pos ‹_›]
      exact hinner _ h
    · rw [if_neg ‹_›]
      split at h
      · rw [if_pos ‹_›]
        cases h
        rfl
      · rw [if_neg ‹_›]
        exact hinner _ h

/-- A string that was left open is closed by its mark: a backslash can only stand before the line feed. -/
theorem exists_takeQuoted {mark : Char} (hmark : mark = '\'' ∨ mark = '"') {escaped : Bool} {s : List Glyph}
    (h : takeQuoted mark escaped s = none) :
    ∃ body, ∀ more, takeQuoted mark escaped (s ++ lineFeed :: .char mark :: more) = some (body, more) := by
  have hslash : mark ≠ '\\' := by rcases hmark with rfl | rfl <;> decide
  have hline : '\n' ≠ mark := by rcases hmark with rfl | rfl <;> decide
  induction s generalizing escaped with
  | nil =>
    refine ⟨[lineFeed, .char mark], fun more => ?_⟩
    simp [takeQuoted, Glyph.read, hslash, hline, Glyph.lineFeed]
  | cons g s ih =>
    have hinner : ∀ e, (takeQuoted mark e s).map (fun p => (g :: p.1, p.2)) = none →
        ∃ body, ∀ more, (takeQuoted mark e (s ++ lineFeed :: .char mark :: more)).map
          (fun p => (g :: p.1, p.2)) = some (body, more) := by
      intro e he
      obtain ⟨body, hbody⟩ := ih (Option.map_eq_none_iff.mp he)
      exact ⟨g :: body, fun more => by rw [hbody]; rfl⟩
    rw [takeQuoted] at h
    simp only [List.cons_append, takeQuoted]
    -- a backslash, a mark that is escaped and any other glyph leave the string open
    by_cases hescape : g.read = '\\'
    · simp only [if_pos hescape] at h ⊢
      exact hinner _ h
    by_cases hquote : (decide (g.read = mark) && !escaped) = true
    · rw [if_neg hescape, if_pos hquote] at h
      cases h
    · simp only [if_neg hescape, if_neg hquote] at h ⊢
      exact hinner _ h

/-- A string is closed in the text, or it can be closed by its mark. -/
theorem joined_scanString (pos : Position) {mark : Char} (hmark : mark = '\'' ∨ mark = '"') (s : List Glyph) :
    Joined (scanString .eof pos mark s) fun more => scanString .eof pos mark (s ++ lineFeed :: more) := by
  unfold scanString
  cases h : takeQuoted mark false s with
  | none =>
    obtain ⟨body, hclosed⟩ := exists_takeQuoted hmark h
    -- the line feed becomes part of the string, and the mark behind it closes it
    refine .cut _ rfl _ (String.ofList [mark]) ?_
      ⟨tokenAt pos .string (Glyph.text (.char mark :: body)), (pos.right 1).afterAll body, fun more => ?_⟩
    · intro c hc
      rw [String.toList_ofList, List.mem_singleton] at hc
      rw [hc]
      rcases hmark with rfl | rfl <;> decide
    · simp only [Glyph.ofString, String.toList_ofList, List.map_cons, List.map_nil, List.cons_append,
        List.nil_append, hclosed]
  | some r =>
    simp only [takeQuoted_extend h]
    exact .found ..

/-- The sign of an exponent is seen alike. -/
theorem takeSign_extend (s more : List Glyph) :
    takeSign (s ++ lineFeed :: more) = ((takeSign s).1, (takeSign s).2 ++ lineFeed :: more) := by
  cases s with
  | nil => rfl
  | cons g s =>
    rw [List.cons_append, takeSign, takeSign]
    split <;> rfl

theorem isDigit_lineFeed : isDigit '\n' = false := by decide

/-- The digits of an exponent end where they did. -/
theorem joined_scanExponent (pos : Position) (mantissa : String) (s : List Glyph) :
    Joined (scanExponent .eof pos mantissa s) fun more =>
      scanExponent .eof pos mantissa (s ++ lineFeed :: more) := by
  simp only [scanExponent, takeSign_extend, run_extend isDigit_lineFeed]
  exact joined_ite (fun _ => .bad _) fun _ => joined_settle ..

/-- The digits of a mantissa end where they did. -/
theorem joined_scanMantissa (pos : Position) (kind : TokenKind) (text : String) (s : List Glyph) :
    Joined (scanMantissa .eof pos kind text s) fun more =>
      scanMantissa .eof pos kind text (s ++ lineFeed :: more) := by
  cases s with
  | nil => exact joined_settle pos _ _ []
  | cons g s => exact joined_ite (fun _ => joined_scanExponent ..) fun _ => .found ..

/-- Hexadecimal digits end where they did. -/
theorem joined_scanHex (pos : Position) (s : List Glyph) :
    Joined (scanHex .eof pos s) fun more => scanHex .eof pos (s ++ lineFeed :: more) := by
  have hstop : isHexDigit '\n' = false := by decide
  simp only [scanHex, run_extend hstop]
  exact joined_ite (fun _ => .bad _) fun _ => joined_settle ..

/-- A number is the same with a line feed behind it. -/
theorem joined_scanNumber (pos : Position) (first : Glyph) (s : List Glyph) :
    Joined (scanNumber .eof pos first s) fun more =>
      scanNumber .eof pos first (s ++ lineFeed :: more) := by
  have hstop : ∀ more, run (fun c => isDigit c || c = '_') (s ++ lineFeed :: more) = _ :=
    fun more => run_extend (by decide) s more
  simp only [scanNumber, hstop]
  rcases run (fun c => isDigit c || c = '_') s with ⟨digits, rest⟩
  cases rest with
  | nil => exact joined_settle pos _ _ []
  | cons g rest =>
    simp only [List.cons_append, run_extend isDigit_lineFeed]
    refine joined_ite (fun _ => ?_) fun _ => joined_ite (fun _ => ?_) fun _ => ?_
    · exact joined_ite (fun _ => joined_scanHex ..) fun _ => .bad _
    · exact joined_ite (fun _ => .found _ (g :: rest) _) fun _ => joined_scanMantissa ..
    · exact joined_scanMantissa pos .int _ (g :: rest)

/-! ## Block comments

A block comment goes on to the end of the line that ends it. If the text ends there without a line
feed, the one that comes behind becomes part of that line and vanishes. -/

/-- Where a line ends: it has its own line feed, or the end of the text ends it, and then it takes the line
feed that comes behind. -/
inductive LineEnds : List Glyph × List Glyph → (List Glyph → List Glyph × List Glyph) → Prop where
  | closed (line : List Glyph) (g : Glyph) (rest : List Glyph) (h : g.read = '\n') :
      LineEnds (line ++ [g], rest) fun more => (line ++ [g], rest ++ lineFeed :: more)
  | opened (line : List Glyph) (g : Glyph) (h : g.read ≠ '\n') :
      LineEnds (line ++ [g], []) fun more => (line ++ [g] ++ [lineFeed], more)

/-- A glyph in front of a line is one more glyph of it. -/
theorem LineEnds.cons {r : List Glyph × List Glyph} {r' : List Glyph → List Glyph × List Glyph}
    (h : LineEnds r r') (g : Glyph) :
    LineEnds (g :: r.1, r.2) fun more => (g :: (r' more).1, (r' more).2) := by
  cases h with
  | closed line nl rest hnl => exact .closed (g :: line) nl rest hnl
  | opened line last hlast => exact .opened (g :: line) last hlast

/-- A line that is not empty has its own line feed, or ends with the text. -/
theorem lineEnds_takeLine (g : Glyph) (s : List Glyph) :
    LineEnds (takeLine (g :: s)) fun more => takeLine (g :: s ++ lineFeed :: more) := by
  induction s generalizing g with
  | nil =>
    by_cases hg : g.read = '\n'
    · simpa [takeLine, hg] using LineEnds.closed [] g [] hg
    · simpa [takeLine, hg] using LineEnds.opened [] g hg
  | cons h s ih =>
    -- a line feed ends the line at once; another glyph is part of it
    by_cases hg : g.read = '\n'
    · have hline : ∀ s, takeLine (g :: s) = ([g], s) := fun s => by rw [takeLine, if_pos hg]
      simp only [List.cons_append, hline]
      exact .closed [] g (h :: s) hg
    · have hline : ∀ s, takeLine (g :: s) = (g :: (takeLine s).1, (takeLine s).2) :=
        fun s => by rw [takeLine, if_neg hg]
      simp only [List.cons_append, hline]
      exact (ih h).cons g

/-- A block that is closed ends with a line. -/
theorem lineEnds_takeBlock {lineStart : Bool} {s : List Glyph} {r : List Glyph × List Glyph}
    (h : takeBlock lineStart s = some r) :
    ∃ r', LineEnds r r' ∧ ∀ more, takeBlock lineStart (s ++ lineFeed :: more) = some (r' more) := by
  -- on the text: the line of `=end` is found before it is over, so only its end may differ
  induction s generalizing lineStart r with
  | nil => cases h
  | cons g s ih =>
    have hword : ∀ more, startsWith "=end" (g :: (s ++ lineFeed :: more)) = startsWith "=end" (g :: s) :=
      fun more => startsWith_extend (by decide) (g :: s) more
    rw [takeBlock] at h
    simp only [List.cons_append, takeBlock, hword]
    split at h
    · rename_i hend
      cases h
      exact ⟨_, lineEnds_takeLine g s, fun more => if_pos hend⟩
    · rename_i hend
      obtain ⟨r₁, hr₁, heq⟩ := Option.map_eq_some_iff.mp h
      obtain ⟨r', hends, hlong⟩ := ih hr₁
      cases heq
      refine ⟨_, hends.cons g, fun more => ?_⟩
      rw [if_neg hend, hlong]
      rfl

/-- A comment that was left open is closed by its last line. -/
theorem exists_takeBlock {lineStart : Bool} {s : List Glyph} (h : takeBlock lineStart s = none) :
    ∃ body, ∀ more, takeBlock lineStart (s ++ lineFeed :: (Glyph.ofString "=end\n" ++ more)) =
      some (body ++ [lineFeed], more) := by
  -- no line of the text closes the comment, but the next one does
  induction s generalizing lineStart with
  | nil =>
    refine ⟨lineFeed :: Glyph.ofString "=end", fun more => ?_⟩
    have hline : startsWith "=end" (lineFeed :: (Glyph.ofString "=end\n" ++ more)) = false := rfl
    have hend : takeBlock true (Glyph.ofString "=end\n" ++ more) =
        some (takeLine (Glyph.ofString "=end\n" ++ more)) := rfl
    rw [List.nil_append, takeBlock, hline, Bool.and_false, if_neg Bool.false_ne_true]
    show (takeBlock true (Glyph.ofString "=end\n" ++ more)).map _ = _
    rw [hend]
    rfl
  | cons g s ih =>
    have hword : ∀ more, startsWith "=end" (g :: (s ++ lineFeed :: more)) = startsWith "=end" (g :: s) :=
      fun more => startsWith_extend (by decide) (g :: s) more
    rw [takeBlock] at h
    simp only [List.cons_append, takeBlock, hword]
    split at h
    · cases h
    · simp only [if_neg ‹_›]
      obtain ⟨body, hbody⟩ := ih (Option.map_eq_none_iff.mp h)
      exact ⟨g :: body, fun more => by rw [hbody]; rfl⟩

/-- A block comment is closed in the text, or a line with its end can close it. -/
theorem joined_scanBlockComment (pos : Position) (g : Glyph) (s : List Glyph) :
    Joined (scanBlockComment .eof pos g s) fun more =>
      scanBlockComment .eof pos g (s ++ lineFeed :: more) := by
  unfold scanBlockComment
  cases h : takeBlock false s with
  | none =>
    obtain ⟨body, hclosed⟩ := exists_takeBlock h
    let comment := Lexeme.comment ((g :: (body ++ [lineFeed])).reverse.dropWhile (·.read = '\n')).reverse pos
    have hall : "=end\n".toList.all (·.toNat < 0x80) = true := rfl
    refine .cut _ rfl _ "=end\n" (fun c hc => of_decide_eq_true (List.all_eq_true.mp hall c hc))
      ⟨comment, pos.below ((body ++ [lineFeed]).countP (·.read = '\n')), fun more => ?_⟩
    simp only [hclosed, List.getLast?_concat, Glyph.read_lineFeed, if_true, comment]
  | some r =>
    obtain ⟨r', hends, hlong⟩ := lineEnds_takeBlock h
    simp only [hlong]
    cases hends with
    | closed line nl rest hnl =>
      simp only [List.getLast?_concat, hnl]
      exact .found ..
    | opened line last hlast =>
      -- the line feed is no part of what the comment says
      simp only [List.getLast?_concat, hlast, Glyph.read_lineFeed, settle]
      have hbody : ((g :: (line ++ [last] ++ [lineFeed])).reverse.dropWhile (·.read = '\n')).reverse =
          ((g :: (line ++ [last])).reverse.dropWhile (·.read = '\n')).reverse := by
        simp
      simp only [hbody]
      exact .comment ..

/-! ## Whole texts

The steps are put together along `lexFrom`. What is read before the last step is the same in both
readings, so only the last one decides which of the cases of `Carries` there is. -/

/-- The kinds of lexemes are tried in the same order with more text behind. -/
theorem joined_scanLexeme (pos : Position) (g : Glyph) (s : List Glyph) :
    Joined (scanLexeme .eof pos g s) fun more => scanLexeme .eof pos g (s ++ lineFeed :: more) := by
  by_cases hslash : g.read = '\\' ∧ s = []
  · -- a backslash stands alone until the line feed comes
    obtain ⟨hg, rfl⟩ := hslash
    have hshort : scanLexeme .eof pos g [] = .bad ⟨[.char '\\'], pos, .invalidCharacter '\\'⟩ := by
      simp [scanLexeme, hg, startsWith, ahead, isIdentStart, isOpStart, isDigit]
    have hlong : ∀ more, scanLexeme .eof pos g ([] ++ lineFeed :: more) = .skipped more (pos.below 1) := by
      intro more
      simp [scanLexeme, hg, startsWith_cons_lineFeed]
    simp only [hshort, hlong]
    exact .continued ..
  · have hcontinues : ∀ more, (g.read = '\\' && startsWith "\n" (s ++ lineFeed :: more)) =
        (g.read = '\\' && startsWith "\n" s) := by
      intro more
      by_cases hg : g.read = '\\'
      · obtain ⟨h, s, rfl⟩ := List.exists_cons_of_ne_nil fun hs => hslash ⟨hg, hs⟩
        simp [startsWith_cons_lineFeed]
      · simp [hg]
    have hbegin : ∀ more, startsWith "begin" (s ++ lineFeed :: more) = startsWith "begin" s :=
      startsWith_extend (by decide) s
    have hpir : ∀ more, startsWith "pir\x7b" (s ++ lineFeed :: more) = startsWith "pir\x7b" s :=
      startsWith_extend (by decide) s
    have hidents : isIdentRest '\n' = false := by decide
    -- the other cases look at words without a line feed, which the text behind cannot make or break
    unfold scanLexeme
    simp only [hcontinues, hbegin, hpir]
    refine joined_ite (fun _ => joined_single ..) fun _ => joined_ite (fun hnl => ?_) fun _ => ?_
    · have hle : 1 ≤ s.length := length_le_of_startsWith ((Bool.and_eq_true _ _).mp hnl).2
      simp only [List.drop_append_of_le_length hle]
      exact .skipped ..
    refine joined_ite (fun _ => joined_scanBlockComment ..) fun _ => ?_
    refine joined_ite (fun _ => joined_scanRun _ _ hidents ..) fun _ => ?_
    refine joined_ite (fun _ => joined_scanGlobal ..) fun _ => joined_ite (fun hword => ?_) fun _ => ?_
    · have hle : 4 ≤ s.length := length_le_of_startsWith ((Bool.and_eq_true _ _).mp hword).2
      simp only [List.drop_append_of_le_length hle]
      exact joined_scanPir ..
    refine joined_ite (fun _ => joined_scanOp ..) fun _ => joined_ite (fun _ => joined_single ..) fun _ => ?_
    refine joined_ite (fun _ => joined_single ..) fun _ => joined_ite (fun _ => joined_single ..) fun _ => ?_
    refine joined_ite (fun _ => joined_scanNumber ..) fun _ => ?_
    refine joined_ite (fun hmark => joined_scanString pos (by simpa using hmark) s) fun _ => ?_
    exact joined_ite (fun _ => joined_scanLineComment ..) fun _ => .bad _

/-- A step passes the blanks, and then the kinds are tried; at the end, the line feed is found. -/
theorem joined_scan (s : List Glyph) (pos : Position) :
    Joined (scan .eof s pos) fun more => scan .eof (s ++ lineFeed :: more) pos := by
  have hblank : isBlank '\n' = false := by decide
  simp only [scan, run_extend hblank]
  cases (run isBlank s).2 with
  | nil =>
    have hfound : ∀ pos more, scanLexeme .eof pos lineFeed more = single pos .semi '\n' more := by
      intro pos more
      simp [scanLexeme]
    simp only [List.nil_append, hfound]
    exact .finished _ _ rfl
  | cons g rest => exact joined_scanLexeme ..

/-- What was read ends with a comment, or where a backslash stands last. -/
inductive OpenEnded : Lexed → Prop where
  | comment (lexemes : List Lexeme) (body : List Glyph) (pos : Position) :
      OpenEnded ⟨lexemes ++ [.comment body pos], none⟩
  | backslash (lexemes : List Lexeme) (pos : Position) :
      OpenEnded ⟨lexemes, some ⟨[.char '\\'], pos, .invalidCharacter '\\'⟩⟩

/-- How a text is read with a line feed and more text behind. -/
inductive Carries : Lexed → (List Glyph → Lexed) → Prop where
  /-- The line feed is read behind all of the text. -/
  | line (lexemes : List Lexeme) (t : Token) (pos : Position) (h : t.isNewline = true) :
      Carries ⟨lexemes, none⟩ fun more =>
        ⟨lexemes ++ .token t :: (lexFrom .eof more pos).lexemes, (lexFrom .eof more pos).bad⟩
  /-- The line feed vanishes. -/
  | joint (lexemes : List Lexeme) (bad : Option BadLexeme) (h : OpenEnded ⟨lexemes, bad⟩) (pos : Position) :
      Carries ⟨lexemes, bad⟩ fun more =>
        ⟨lexemes ++ (lexFrom .eof more pos).lexemes, (lexFrom .eof more pos).bad⟩
  /-- Reading stops in the text. -/
  | same (lexemes : List Lexeme) (b : BadLexeme) : Carries ⟨lexemes, some b⟩ fun _ => ⟨lexemes, some b⟩
  /-- The text was never closed, but it can be. -/
  | cut (lexemes : List Lexeme) (b : BadLexeme) (h : b.fault = .unterminated) (r : List Glyph → Lexed)
      (close : String) (hascii : IsAscii close)
      (hr : ∃ l pos, ∀ more, r (Glyph.ofString close ++ more) =
        ⟨l :: (lexFrom .eof more pos).lexemes, (lexFrom .eof more pos).bad⟩) :
      Carries ⟨lexemes, some b⟩ fun more => ⟨lexemes ++ (r more).lexemes, (r more).bad⟩

/-- A lexeme in front does not change how a reading ends. -/
theorem OpenEnded.cons {l : Lexed} (h : OpenEnded l) (lexeme : Lexeme) :
    OpenEnded ⟨lexeme :: l.lexemes, l.bad⟩ := by
  cases h with
  | comment lexemes body pos => exact .comment (lexeme :: lexemes) body pos
  | backslash lexemes pos => exact .backslash (lexeme :: lexemes) pos

/-- A lexeme in front does not change how a reading is carried on. -/
theorem Carries.cons {l : Lexed} {l' : List Glyph → Lexed} (h : Carries l l') (lexeme : Lexeme) :
    Carries ⟨lexeme :: l.lexemes, l.bad⟩ fun more => ⟨lexeme :: (l' more).lexemes, (l' more).bad⟩ := by
  cases h with
  | line lexemes t pos h => exact .line (lexeme :: lexemes) t pos h
  | joint lexemes bad h pos => exact .joint (lexeme :: lexemes) bad (h.cons lexeme) pos
  | same lexemes b => exact .same (lexeme :: lexemes) b
  | cut lexemes b h r close hascii hr => exact .cut (lexeme :: lexemes) b h r close hascii hr

/-- A lexeme is read, and the rest behind it. -/
theorem lexFrom_of_found {s rest : List Glyph} {pos next : Position} {l : Lexeme}
    (h : scan .eof s pos = .found l rest next) :
    lexFrom .eof s pos = ⟨l :: (lexFrom .eof rest next).lexemes, (lexFrom .eof rest next).bad⟩ := by
  rw [lexFrom]
  split <;> simp_all

theorem lexFrom_of_skipped {s rest : List Glyph} {pos next : Position}
    (h : scan .eof s pos = .skipped rest next) : lexFrom .eof s pos = lexFrom .eof rest next := by
  rw [lexFrom]
  split <;> simp_all

theorem lexFrom_of_bad {s : List Glyph} {pos : Position} {b : BadLexeme}
    (h : scan .eof s pos = .bad b) : lexFrom .eof s pos = ⟨[], some b⟩ := by
  rw [lexFrom]
  split <;> simp_all

theorem lexFrom_of_finished {s : List Glyph} {pos : Position} (h : scan .eof s pos = .finished) :
    lexFrom .eof s pos = {} := by
  rw [lexFrom]
  split <;> simp_all

/-- A text with a line feed and more text behind is read as the text alone is, and then goes on. -/
theorem carries_lexFrom (s : List Glyph) (pos : Position) :
    Carries (lexFrom .eof s pos) fun more => lexFrom .eof (s ++ lineFeed :: more) pos := by
  have hjoined := joined_scan s pos
  generalize hr : scan .eof s pos = r at hjoined
  generalize hlong : (fun more => scan .eof (s ++ lineFeed :: more) pos) = r' at hjoined
  replace hlong := fun more => congrFun hlong more
  -- by induction on the length of the text, one case for each way its first step may go
  cases hjoined with
  | finished t next ht =>
    simp only [lexFrom_of_finished hr, lexFrom_of_found (hlong _)]
    exact .line [] t next ht
  | skipped rest next =>
    simp only [lexFrom_of_skipped hr, lexFrom_of_skipped (hlong _)]
    exact carries_lexFrom rest next
  | found l rest next =>
    simp only [lexFrom_of_found hr, lexFrom_of_found (hlong _)]
    exact (carries_lexFrom rest next).cons l
  | comment body start next next' =>
    have hnil : lexFrom .eof [] next = {} := lexFrom_of_finished rfl
    simp only [lexFrom_of_found hr, lexFrom_of_found (hlong _), hnil]
    exact .joint [.comment body start] none (.comment [] body start) next'
  | continued start next =>
    simp only [lexFrom_of_bad hr, lexFrom_of_skipped (hlong _)]
    exact .joint [] _ (.backslash [] start) next
  | bad b =>
    simp only [lexFrom_of_bad hr, lexFrom_of_bad (hlong _)]
    exact .same [] b
  | cut b hb r' close hascii hclosed =>
    obtain ⟨l, next, hfound⟩ := hclosed
    simp only [lexFrom_of_bad hr]
    refine .cut [] b hb _ close hascii ⟨l, next, fun more => ?_⟩
    exact lexFrom_of_found ((hlong _).trans (hfound more))
termination_by s.length
decreasing_by
  · exact scan_rest_lt (by rw [hr]; rfl)
  · exact scan_rest_lt (by rw [hr]; rfl)

end Lexer

end ScriptPir

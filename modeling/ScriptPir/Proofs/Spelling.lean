import Mathlib.Tactic.IntervalCases
import ScriptPir.Proofs.Continuation
import ScriptPir.Proofs.Escapes

/-!
# Lexing undoes spelling

`IsSpelling` says of each kind of token which texts are spellings of it. A list of spellings, written with one
space between neighbours, is read as the tokens that were spelled: `lex_line`.

A space ends every lexeme and is part of none but strings and target code, which end with a mark of their
own. So one step of the lexer takes exactly the spelling in front, if nothing or a space stands behind it
(`taken_spelling`).

* `IsSpelling` — the texts of each kind of token, as a relation without the lexer;
* `Finds` and `Taken` — one step of the lexer takes exactly this text, whatever stands behind it, if
  that is nothing or a space;
* `undoes_line` — whole lines, by induction on the words.
-/

namespace ScriptPir

open Lexer

/-! ## Spellings

The specification, by kind of token and without reference to the lexer: runs of characters, quoted
texts, balanced braces, and the list of operators. -/

/-- One or more characters of a class. -/
structure IsRun (p : Char → Bool) (s : List Char) : Prop where
  ne_nil : s ≠ []
  all : ∀ c ∈ s, p c = true

/-- The braces in a text balance, and none is closed that was not opened. -/
structure Balanced (s : List Char) : Prop where
  opened : ∀ front, front <+: s → front.count '\x7d' ≤ front.count '\x7b'
  closed : s.count '\x7d' = s.count '\x7b'

/-- A point and the digits behind it, or nothing. -/
inductive IsFraction : List Char → Prop
  | none : IsFraction []
  | some {digits : List Char} (h : IsRun isDigit digits) : IsFraction ('.' :: digits)

/-- The letter of an exponent, its sign, if it has one, and its digits; or nothing. -/
inductive IsExponent : List Char → Prop
  | none : IsExponent []
  | some {sign digits : List Char} (hsign : sign = [] ∨ sign = ['+'] ∨ sign = ['-'])
      (h : IsRun isDigit digits) : IsExponent ('e' :: (sign ++ digits))

/-- A text is what a token of a kind may hold. -/
inductive IsSpelling : TokenKind → List Char → Prop
  | semi {c : Char} (h : c = ';' ∨ c = '\n') : IsSpelling .semi [c]
  | ident {c : Char} {rest : List Char} (hc : isIdentStart c = true)
      (hrest : ∀ d ∈ rest, isIdentRest d = true) : IsSpelling .ident (c :: rest)
  | global {name : List Char} (h : IsRun isIdentRest name) : IsSpelling .global ('$' :: name)
  | int {c : Char} {rest : List Char} (hc : isDigit c = true)
      (hrest : ∀ d ∈ rest, (isDigit d || d = '_') = true) : IsSpelling .int (c :: rest)
  | hex {digits : List Char} (h : IsRun isHexDigit digits) : IsSpelling .int ('0' :: 'x' :: digits)
  | float {c : Char} {rest fraction exponent : List Char} (hc : isDigit c = true)
      (hrest : ∀ d ∈ rest, (isDigit d || d = '_') = true) (hfraction : IsFraction fraction)
      (hexponent : IsExponent exponent) (hne : fraction ++ exponent ≠ []) :
      IsSpelling .float (c :: rest ++ (fraction ++ exponent))
  | string {mark : Char} {inside : List Char} (hmark : mark = '\'' ∨ mark = '"')
      (h : WellQuoted mark inside) : IsSpelling .string (mark :: (inside ++ [mark]))
  | op {op : String} (h : op ∈ operators) : IsSpelling .op op.toList
  | opening {c : Char} (h : c = '(' ∨ c = '[') : IsSpelling .opening [c]
  | closing {c : Char} (h : c = ')' ∨ c = ']') : IsSpelling .closing [c]
  | comma : IsSpelling .comma [',']
  | pir {body : List Char} (h : Balanced body) : IsSpelling .pir body

/-- A token that can be written down: its kind, and a text that such a token may hold. -/
structure Spelling where
  kind : TokenKind
  text : String
  spelled : IsSpelling kind text.toList

namespace Spelling

/-- How a token is written: target code stands in braces. -/
def written (w : Spelling) : String :=
  if w.kind = .pir then "%pir\x7b" ++ w.text ++ "\x7d" else w.text

/-- Some tokens, written with one space between neighbours. -/
def line (words : List Spelling) : String := " ".intercalate (words.map written)

end Spelling

namespace Lexer

/-! ## What may stand behind a spelling

A space ends every run of characters, since it is in none of the classes. So whether a step stops at
the right place is a matter of the class alone. -/

/-- Nothing or a space. -/
def Stops (t : List Glyph) : Prop := ∀ g ∈ t.head?, g = .char ' '

variable {t : List Glyph}

/-- What stands behind is nothing, or begins with a space. -/
theorem Stops.cases (h : Stops t) : t = [] ∨ ∃ more, t = .char ' ' :: more := by
  cases t with
  | nil => exact .inl rfl
  | cons g more => exact .inr ⟨more, by rw [h g rfl]⟩

/-- What stands behind does not begin with a character of a class without the space. -/
theorem Stops.not_class (h : Stops t) {p : Char → Bool} (hp : p ' ' = false) :
    ∀ g ∈ t.head?, p g.read = false := by
  intro g hg
  rw [h g hg]
  exact hp

/-- A run goes as far as its class does. -/
theorem run_glyphs {p : Char → Bool} {s : List Char} (hs : ∀ c ∈ s, p c = true)
    (ht : ∀ g ∈ t.head?, p g.read = false) : run p (s.map .char ++ t) = (s.map .char, t) := by
  have hall : ∀ g ∈ s.map Glyph.char, p g.read = true := List.forall_mem_map.mpr hs
  have hnone : t.takeWhile (p ·.read) = [] ∧ t.dropWhile (p ·.read) = t := by
    cases t with
    | nil => exact ⟨rfl, rfl⟩
    | cons g t => simp [ht g rfl]
  rw [run, List.takeWhile_append_of_pos hall, List.dropWhile_append_of_pos hall, hnone.1, hnone.2,
    List.append_nil]

theorem text_glyphs (s : List Char) : Glyph.text (s.map .char) = String.ofList s := by
  rw [Glyph.text, List.map_map, show Glyph.read ∘ Glyph.char = id from rfl, List.map_id]

/-- A word does not stand in front if its first letter does not. -/
theorem startsWith_of_head {word : String} {c : Char} (hword : word.toList.head? = some c)
    {s : List Glyph} (hs : ∀ g ∈ s.head?, g.read ≠ c) : startsWith word s = false := by
  refine decide_eq_false fun heq => ?_
  rw [← heq, ahead, List.head?_map, List.head?_take] at hword
  split at hword
  · cases hword
  · obtain ⟨g, hg, hread⟩ := Option.map_eq_some_iff.mp hword
    exact hs g hg hread

/-- A character of a class is none that the class leaves out. -/
theorem ne_of_class {p : Char → Bool} {c : Char} (hc : p c = true) {d : Char} (hd : p d = false) :
    c ≠ d := by
  rintro rfl
  rw [hc] at hd
  cases hd

/-- What holds of the ten digits. -/
theorem forall_digit {p : Char → Bool} (hp : "0123456789".toList.all p = true) {c : Char}
    (hc : isDigit c = true) : p c = true := by
  refine List.all_eq_true.mp hp c ?_
  simp only [isDigit, Bool.and_eq_true, decide_eq_true_eq] at hc
  have hlow : 48 ≤ c.toNat := hc.1
  have hhigh : c.toNat ≤ 57 := hc.2
  rw [← Char.ofNat_toNat c]
  -- ten values
  interval_cases c.toNat <;> decide

/-! ## One step

For each kind of token, the step of the lexer is followed from the first character of a spelling. The
branches before the right one are excluded by what that character is. -/

/-- A step finds a token of a kind and text, and goes on at `t`. -/
def Scan.Finds (pos : Position) (kind : TokenKind) (text : String) (t : List Glyph) (r : Scan) : Prop :=
  ∃ next, r = .found (tokenAt pos kind text) t next

/-- One step takes a spelling off the front, and finds the token that was spelled. -/
def Taken (kind : TokenKind) (text : String) (written : List Char) : Prop :=
  ∃ c rest, written = c :: rest ∧ isBlank c = false ∧ ∀ pos t, Stops t →
    (scanLexeme .eof pos (.char c) (rest.map .char ++ t)).Finds pos kind text t

/-- A token in front of the rest of the input is found. -/
theorem finds_settle (pos : Position) (kind : TokenKind) (text : String) (t : List Glyph)
    (next : Position) : (settle .eof pos (tokenAt pos kind text) t next).Finds pos kind text t :=
  ⟨next, settle_eof ..⟩

/-- Separators, brackets and commas are complete in themselves. -/
theorem taken_of_single {kind : TokenKind} {c : Char} (hblank : isBlank c = false)
    (h : ∀ pos t, (scanLexeme .eof pos (.char c) t).Finds pos kind (String.ofList [c]) t) :
    Taken kind (String.ofList [c]) [c] :=
  ⟨c, [], rfl, hblank, fun pos t _ => h pos t⟩

/-- A run of characters of a class is found as a whole. -/
theorem finds_scanRun (kind : TokenKind) {p : Char → Bool} (hp : p ' ' = false) (c : Char)
    {rest : List Char} (hrest : ∀ d ∈ rest, p d = true) (pos : Position) (ht : Stops t) :
    (scanRun .eof pos kind p (.char c) (rest.map .char ++ t)).Finds pos kind
      (String.ofList (c :: rest)) t := by
  rw [scanRun, run_glyphs hrest (ht.not_class hp)]
  simp only [← List.map_cons, text_glyphs]
  exact finds_settle ..

/-- A name is taken in one step. -/
theorem taken_ident {c : Char} {rest : List Char} (hc : isIdentStart c = true)
    (hrest : ∀ d ∈ rest, isIdentRest d = true) :
    Taken .ident (String.ofList (c :: rest)) (c :: rest) := by
  -- a letter is none of the characters that are looked for before
  have hne : ∀ d, isIdentStart d = false → c ≠ d := fun d => ne_of_class hc
  have hblank : isBlank c = false := by
    simp [isBlank, hne ' ' (by decide), hne '\r' (by decide), hne '\x0C' (by decide),
      hne '\t' (by decide), hne '\x0B' (by decide)]
  refine ⟨c, rest, rfl, hblank, fun pos t ht => ?_⟩
  have hfinds := finds_scanRun .ident (by decide) c hrest pos ht
  simpa [scanLexeme, Glyph.read, hc, hne ';' (by decide), hne '\n' (by decide), hne '\\' (by decide),
    hne '=' (by decide)] using hfinds

/-- A global is taken in one step, with its dollar sign. -/
theorem taken_global {name : List Char} (h : IsRun isIdentRest name) :
    Taken .global (String.ofList ('$' :: name)) ('$' :: name) := by
  refine ⟨'$', name, rfl, by decide, fun pos t ht => ?_⟩
  show (scanGlobal .eof pos (name.map .char ++ t)).Finds pos .global _ t
  rw [scanGlobal, run_glyphs h.all (ht.not_class (by decide))]
  cases name with
  | nil => exact absurd rfl h.ne_nil
  | cons c name => exact finds_scanRun .global (by decide) '$' h.all pos ht

/-- Operators are made of one to three operator characters. -/
theorem operator_chars {op : String} (h : op ∈ operators) :
    ∃ c rest, op.toList = c :: rest ∧ rest.length ≤ 2 ∧ ∀ d ∈ c :: rest, isOpStart d = true := by
  have hall : ∀ op ∈ operators, op.toList ≠ [] ∧ op.toList.length ≤ 3 ∧
      op.toList.all isOpStart = true := by decide
  obtain ⟨hne, hlength, hchars⟩ := hall op h
  obtain ⟨c, rest, heq⟩ := List.exists_cons_of_ne_nil hne
  rw [heq] at hlength hchars
  exact ⟨c, rest, heq, Nat.le_of_succ_le_succ hlength, List.all_eq_true.mp hchars⟩

/-- What holds of the characters of operators. -/
theorem forall_opStart {p : Char → Bool}
    (hp : ['+', '-', '*', '/', '%', '=', '<', '>', '!', '&', '|', ':'].all p = true) {c : Char}
    (hc : isOpStart c = true) : p c = true :=
  List.all_eq_true.mp hp c (of_decide_eq_true hc)

/-- No operator in front of another one in the list is a beginning of it. -/
theorem find_operator {op : String} (h : op ∈ operators) :
    operators.find? (·.toList.isPrefixOf op.toList) = some op := by
  revert op
  decide +kernel

/-- An operator is found that is the longest one in front. -/
theorem finds_scanOp {op : String} (h : op ∈ operators) {c : Char} {rest : List Char}
    (heq : op.toList = c :: rest) (hlength : rest.length ≤ 2) (pos : Position) (ht : Stops t) :
    (scanOp pos c (rest.map .char ++ t)).Finds pos .op op t := by
  -- the longest operator is looked for in three characters; those behind `op` are blank
  have hahead : ∃ k, ahead 2 (rest.map .char ++ t) = rest ++ ahead k t := by
    refine ⟨2 - rest.length, ?_⟩
    rw [ahead, List.take_append, List.length_map, List.map_append,
      List.take_of_length_le (by simpa using hlength), List.map_map, show Glyph.read ∘ Glyph.char = id from rfl, List.map_id]
    rfl
  have hspace : ∀ op ∈ operators, ' ' ∉ op.toList := by decide
  have hfront : operators.find? (·.toList.isPrefixOf (c :: ahead 2 (rest.map .char ++ t))) = some op := by
    obtain ⟨k, hk⟩ := hahead
    rw [hk, ← List.cons_append, ← heq]
    -- so nothing behind `op` makes it another one
    have hbehind : ahead k t = [] ∨ ∃ more, ahead k t = ' ' :: more := by
      cases k with
      | zero => exact .inl rfl
      | succ k =>
        rcases ht.cases with rfl | ⟨more, rfl⟩
        · exact .inl rfl
        · exact .inr ⟨_, rfl⟩
    rcases hbehind with hnil | ⟨more, hmore⟩
    · rw [hnil, List.append_nil, find_operator h]
    · rw [hmore, ← find_operator h]
      exact List.find?_congr fun o ho => isPrefixOf_extend (hspace o ho) more
  have hdrop : (rest.map Glyph.char ++ t).drop (op.length - 1) = t := by
    refine List.drop_left' ?_
    rw [List.length_map, ← String.length_toList, heq]
    rfl
  rw [scanOp]
  simp only [hfront, hdrop]
  exact ⟨_, rfl⟩

/-- An operator is taken in one step. -/
theorem taken_op {op : String} (h : op ∈ operators) : Taken .op op op.toList := by
  obtain ⟨c, rest, heq, hlength, hchars⟩ := operator_chars h
  have hc := hchars c List.mem_cons_self
  have hclass := forall_opStart (p := fun c => !isBlank c && !isIdentStart c) (by decide) hc
  simp only [Bool.and_eq_true, Bool.not_eq_true'] at hclass
  have hne : ∀ d, isOpStart d = false → c ≠ d := fun d => ne_of_class hc
  refine ⟨c, rest, heq, hclass.1, fun pos t ht => ?_⟩
  -- neither a block comment nor target code starts here
  have hword : ∀ word d, word.toList.head? = some d → isOpStart d = false → d ≠ ' ' →
      startsWith word (rest.map .char ++ t) = false := by
    intro word d hhead hd hspace
    refine startsWith_of_head hhead fun g hg => ?_
    cases rest with
    | nil => rw [ht g hg]; exact hspace.symm
    | cons e rest =>
      obtain rfl : Glyph.char e = g := by simpa using hg
      exact ne_of_class (hchars e (by simp)) hd
  have hfinds := finds_scanOp h heq hlength pos ht
  simpa [scanLexeme, Glyph.read, hc, hclass.2, hne ';' (by decide), hne '\n' (by decide),
    hne '\\' (by decide), hne '$' (by decide), hword "begin" 'b' (by decide) (by decide) (by decide),
    hword "pir\x7b" 'p' (by decide) (by decide) (by decide)] using hfinds

/-! ## Numbers

A number is read in three parts. Each part may be missing, and ends where a character stands that is
none of its own; `head_of_parts` says which characters these may be. -/

/-- An exponent is found, with a sign or without. -/
theorem finds_scanExponent {sign digits : List Char} (hsign : sign = [] ∨ sign = ['+'] ∨ sign = ['-'])
    (h : IsRun isDigit digits) (pos : Position) (mantissa : String) (ht : Stops t) :
    (scanExponent .eof pos mantissa ((sign ++ digits).map .char ++ t)).Finds pos .float
      (mantissa ++ String.ofList ('e' :: (sign ++ digits))) t := by
  -- a digit is no sign, so the sign is taken if there is one
  have htake : takeSign ((sign ++ digits).map .char ++ t) = (sign.map .char, digits.map .char ++ t) := by
    rcases hsign with rfl | rfl | rfl
    · cases digits with
      | nil => exact absurd rfl h.ne_nil
      | cons c digits =>
        have hc := h.all c List.mem_cons_self
        have hplain : c ≠ '-' ∧ c ≠ '+' := ⟨ne_of_class hc (by decide), ne_of_class hc (by decide)⟩
        simp [takeSign, Glyph.read, hplain]
    · rfl
    · rfl
  have hne : digits.map Glyph.char ≠ [] := by simpa using h.ne_nil
  have htext : mantissa ++ String.ofList ('e' :: (sign ++ digits)) =
      mantissa ++ "e" ++ String.ofList (sign ++ digits) := by
    rw [String.ofList_cons, String.append_assoc]
    rfl
  rw [scanExponent, htake, htext]
  simp only [run_glyphs h.all (ht.not_class (by decide)), if_neg hne, ← List.map_append, text_glyphs]
  exact finds_settle ..

/-- Behind a mantissa an exponent is found, if there is one. -/
theorem finds_scanMantissa (kind : TokenKind) {exponent : List Char} (h : IsExponent exponent)
    (pos : Position) (text : String) (ht : Stops t) :
    (scanMantissa .eof pos kind text (exponent.map .char ++ t)).Finds pos
      (if exponent = [] then kind else .float) (text ++ String.ofList exponent) t := by
  cases h with
  | none =>
    rw [String.ofList_nil, String.append_empty]
    rcases ht.cases with rfl | ⟨more, rfl⟩
    · exact finds_settle ..
    · exact ⟨_, rfl⟩
  | some hsign h => exact finds_scanExponent hsign h pos text ht

/-- The character behind the whole part of a number is no part of it. -/
theorem head_of_parts {fraction exponent : List Char} (hfraction : IsFraction fraction)
    (hexponent : IsExponent exponent) (ht : Stops t) {p : Char → Bool} (hspace : p ' ' = false)
    (hpoint : p '.' = false) (hletter : p 'e' = false) :
    ∀ g ∈ ((fraction ++ exponent).map Glyph.char ++ t).head?, p g.read = false := by
  -- a point, the letter `e` or a space
  cases hfraction with
  | none =>
    cases hexponent with
    | none => exact ht.not_class hspace
    | some hsign h =>
      rintro g ⟨rfl⟩
      exact hletter
  | some h =>
    rintro g ⟨rfl⟩
    exact hpoint

/-- Decimal numbers of all forms: an integer has neither fraction nor exponent. -/
theorem finds_scanNumber {c : Char} {rest fraction exponent : List Char}
    (hrest : ∀ d ∈ rest, (isDigit d || d = '_') = true) (hfraction : IsFraction fraction)
    (hexponent : IsExponent exponent) (pos : Position) (ht : Stops t) :
    (scanNumber .eof pos (.char c) ((rest ++ (fraction ++ exponent)).map .char ++ t)).Finds pos
      (if fraction ++ exponent = [] then .int else .float)
      (String.ofList (c :: rest ++ (fraction ++ exponent))) t := by
  -- the digits of the whole part end where another part begins or behind the number
  have hrun := run_glyphs hrest
    (head_of_parts hfraction hexponent ht (p := fun d => isDigit d || d = '_') (by decide)
      (by decide) (by decide))
  rw [scanNumber, List.map_append, List.append_assoc, hrun, String.ofList_append]
  simp only [← List.map_cons, text_glyphs]
  generalize String.ofList (c :: rest) = whole
  cases hfraction with
  | none =>
    have hmantissa := finds_scanMantissa .int hexponent pos whole ht
    cases hexponent with
    | none =>
      rcases ht.cases with rfl | ⟨more, rfl⟩
      · exact hmantissa
      · exact hmantissa
    | some hsign h => exact hmantissa
  | some h =>
    rename_i digits
    have hdigits : run isDigit (digits.map .char ++ (exponent.map .char ++ t)) =
        (digits.map .char, exponent.map .char ++ t) :=
      run_glyphs h.all (head_of_parts .none hexponent ht (by decide) (by decide) (by decide))
    have hne : digits.map Glyph.char ≠ [] := by simpa using h.ne_nil
    have hmantissa := finds_scanMantissa .float hexponent pos (whole ++ "." ++ String.ofList digits) ht
    rw [ite_self, String.append_assoc, String.append_assoc, ← String.ofList_append] at hmantissa
    simpa [Glyph.read, hdigits, hne, text_glyphs] using hmantissa

/-- A number in hexadecimal is found. -/
theorem finds_hex {digits : List Char} (h : IsRun isHexDigit digits) (pos : Position) (ht : Stops t) :
    (scanNumber .eof pos (.char '0') ((.char 'x' :: digits.map .char) ++ t)).Finds pos .int
      (String.ofList ('0' :: 'x' :: digits)) t := by
  have hne : digits.map Glyph.char ≠ [] := by simpa using h.ne_nil
  show (scanHex .eof pos (digits.map .char ++ t)).Finds pos .int _ t
  rw [scanHex]
  simp only [run_glyphs h.all (ht.not_class (by decide)), if_neg hne, text_glyphs]
  have htext : "0x" ++ String.ofList digits = String.ofList ('0' :: 'x' :: digits) := by
    rw [← String.ofList_append]
    rfl
  rw [htext]
  exact finds_settle ..

/-- A number starts with a digit. -/
theorem taken_of_digit {kind : TokenKind} {text : String} {c : Char} (hc : isDigit c = true)
    {rest : List Char}
    (h : ∀ pos t, Stops t → (scanNumber .eof pos (.char c) (rest.map .char ++ t)).Finds pos kind text t) :
    Taken kind text (c :: rest) := by
  have hclass := forall_digit (p := fun c => !isBlank c && !isIdentStart c && !isOpStart c) (by decide) hc
  simp only [Bool.and_eq_true, Bool.not_eq_true'] at hclass
  have hne : ∀ d, isDigit d = false → c ≠ d := fun d => ne_of_class hc
  refine ⟨c, rest, rfl, hclass.1.1, fun pos t ht => ?_⟩
  simpa [scanLexeme, Glyph.read, hc, hclass.1.2, hclass.2, hne ';' (by decide), hne '\n' (by decide),
    hne '\\' (by decide), hne '=' (by decide), hne '$' (by decide), hne '%' (by decide), hne '(' (by decide),
    hne '[' (by decide), hne ')' (by decide), hne ']' (by decide), hne ',' (by decide)] using h pos t ht

/-! ## Strings and target code

These end with a mark of their own, so anything may stand behind them. A string is followed along the
automaton for escapes, target code along the depth of its braces. -/

/-- A string ends at the first mark that is not escaped. -/
theorem takeQuoted_marked {mark : Char} (hmark : mark ≠ '\\') {e : Bool} {inside : List Char}
    (hmarks : Escape.Marks mark true e inside) (hend : Escape.after e inside = false) (t : List Glyph) :
    takeQuoted mark e (inside.map .char ++ .char mark :: t) =
      some (inside.map .char ++ [.char mark], t) := by
  induction inside generalizing e with
  | nil =>
    obtain rfl : e = false := hend
    simp [takeQuoted, Glyph.read, hmark]
  | cons c inside ih =>
    rw [Escape.marks_cons] at hmarks
    have hinner := ih hmarks.2 hend
    rw [List.map_cons, List.cons_append, takeQuoted]
    dsimp only
    -- a backslash changes what the next character means, and any other character ends an escape
    by_cases hslash : (Glyph.char c).read = '\\'
    · have hstep : Escape.step e c = !e := by simp [Escape.step, show c = '\\' from hslash]
      rw [if_pos hslash, ← hstep, hinner]
      rfl
    · have hopen : ¬(decide ((Glyph.char c).read = mark) && !e) = true := by
        rw [Bool.and_eq_true, decide_eq_true_eq]
        rintro ⟨hread, hplain⟩
        rw [hmarks.1 hread] at hplain
        cases hplain
      have hstep : Escape.step e c = false := by simp [Escape.step, show c ≠ '\\' from hslash]
      rw [if_neg hslash, if_neg hopen, ← hstep, hinner]
      rfl

/-- Target code ends at the brace that closes the first one. -/
theorem takeBraced_balanced {depth : Nat} {body : List Char}
    (hopened : ∀ front, front <+: body → front.count '\x7d' < front.count '\x7b' + depth)
    (hclosed : body.count '\x7d' + 1 = body.count '\x7b' + depth) (t : List Glyph) :
    takeBraced depth (body.map .char ++ .char '\x7d' :: t) = some (body.map .char, t) := by
  induction body generalizing depth with
  | nil =>
    obtain rfl : depth = 1 := by simpa using hclosed.symm
    exact takeBraced_last rfl t
  | cons c body ih =>
    have hfront : ∀ front, front <+: body →
        (c :: front).count '\x7d' < (c :: front).count '\x7b' + depth :=
      fun front hprefix => hopened _ (List.cons_prefix_cons.mpr ⟨rfl, hprefix⟩)
    have hopening : '\x7b' ≠ '\x7d' := by decide
    have hclosing : '\x7d' ≠ '\x7b' := by decide
    rw [List.map_cons, List.cons_append]
    -- an opening brace adds to the depth, a closing one takes from it but never the last
    by_cases hopen : c = '\x7b'
    · subst hopen
      simp only [List.count_cons_self, List.count_cons_of_ne hopening] at hfront hclosed
      have hinner := @ih (depth + 1)
        (fun front hprefix => by have hcount := hfront front hprefix; omega) (by omega)
      rw [takeBraced_open rfl, hinner]
      rfl
    by_cases hclose : c = '\x7d'
    · subst hclose
      simp only [List.count_cons_self, List.count_cons_of_ne hclosing] at hfront hclosed
      obtain ⟨d, rfl⟩ : ∃ d, depth = d + 2 := by
        have hdepth := hfront [] List.nil_prefix
        simp only [List.count_nil] at hdepth
        exact ⟨depth - 2, by omega⟩
      have hinner := @ih (d + 1)
        (fun front hprefix => by have hcount := hfront front hprefix; omega) (by omega)
      rw [takeBraced_close rfl, hinner]
      rfl
    · simp only [List.count_cons_of_ne hopen, List.count_cons_of_ne hclose] at hfront hclosed
      rw [takeBraced_plain (g := .char c) hopen hclose, ih hfront hclosed]
      rfl

/-- A string is taken in one step. -/
theorem taken_string {mark : Char} {inside : List Char} (hmark : mark = '\'' ∨ mark = '"')
    (h : WellQuoted mark inside) :
    Taken .string (String.ofList (mark :: (inside ++ [mark]))) (mark :: (inside ++ [mark])) := by
  have hslash : mark ≠ '\\' := by rcases hmark with rfl | rfl <;> decide
  rw [wellQuoted_iff] at h
  refine ⟨mark, inside ++ [mark], rfl, by rcases hmark with rfl | rfl <;> decide, fun pos t _ => ?_⟩
  have htake : takeQuoted mark false ((inside ++ [mark]).map .char ++ t) =
      some ((inside ++ [mark]).map .char, t) := by
    simpa using takeQuoted_marked hslash h.1 h.2 t
  have hscan : (scanString .eof pos mark ((inside ++ [mark]).map .char ++ t)).Finds pos .string
      (String.ofList (mark :: (inside ++ [mark]))) t := by
    rw [scanString, htake]
    simp only [← List.map_cons, text_glyphs]
    exact ⟨_, rfl⟩
  rcases hmark with rfl | rfl <;> exact hscan

/-- Target code is taken in one step, without its braces. -/
theorem taken_pir {body : List Char} (h : Balanced body) :
    Taken .pir (String.ofList body) ("%pir\x7b".toList ++ body ++ ['\x7d']) := by
  refine ⟨'%', "pir\x7b".toList ++ body ++ ['\x7d'], rfl, by decide, fun pos t _ => ?_⟩
  have htake : takeBraced 1 (body.map .char ++ .char '\x7d' :: t) = some (body.map .char, t) :=
    takeBraced_balanced (fun front hfront => Nat.lt_succ_of_le (h.opened front hfront))
      (congrArg Nat.succ h.closed) t
  have hscan : (scanPir .eof pos (body.map .char ++ .char '\x7d' :: t)).Finds pos .pir
      (String.ofList body) t := by
    rw [scanPir, htake]
    simp only [text_glyphs]
    exact ⟨_, rfl⟩
  have hsource : ("pir\x7b".toList ++ body ++ ['\x7d']).map .char ++ t =
      .char 'p' :: .char 'i' :: .char 'r' :: .char '\x7b' :: (body.map .char ++ .char '\x7d' :: t) := by
    simp
  rw [hsource]
  exact hscan

/-- Every spelling is taken in one step. -/
theorem taken_spelling (w : Spelling) : Taken w.kind w.text w.written.toList := by
  obtain ⟨kind, text, hspelled⟩ := w
  -- all kinds but target code are kept as they are written
  have htaken : ∀ {s : List Char}, IsSpelling kind s → kind ≠ .pir → Taken kind (String.ofList s) s := by
    intro s hs hkind
    cases hs with
    | semi h => rcases h with rfl | rfl <;> exact taken_of_single (by decide) fun _ _ => ⟨_, rfl⟩
    | ident hc hrest => exact taken_ident hc hrest
    | global h => exact taken_global h
    | int hc hrest =>
      refine taken_of_digit hc fun pos t ht => ?_
      simpa using finds_scanNumber hrest .none .none pos ht
    | hex h => exact taken_of_digit (by decide) fun pos t ht => finds_hex h pos ht
    | @float c _ _ _ hc hrest hfraction hexponent hne =>
      refine taken_of_digit hc fun pos t ht => ?_
      have hfinds := finds_scanNumber (c := c) hrest hfraction hexponent pos ht
      rw [if_neg hne] at hfinds
      exact hfinds
    | string hmark h => exact taken_string hmark h
    | op h => rw [String.ofList_toList]; exact taken_op h
    | opening h => rcases h with rfl | rfl <;> exact taken_of_single (by decide) fun _ _ => ⟨_, rfl⟩
    | closing h => rcases h with rfl | rfl <;> exact taken_of_single (by decide) fun _ _ => ⟨_, rfl⟩
    | comma => exact taken_of_single (by decide) fun _ _ => ⟨_, rfl⟩
    | pir h => exact absurd rfl hkind
  unfold Spelling.written
  by_cases hkind : kind = .pir
  · subst hkind
    obtain ⟨body, rfl⟩ : ∃ body, text = String.ofList body := ⟨_, String.ofList_toList.symm⟩
    rw [if_pos rfl]
    cases hspelled with
    | pir h =>
      rw [String.toList_ofList] at h
      simpa [String.toList_append] using taken_pir h
  · rw [if_neg hkind]
    have hself := htaken hspelled hkind
    rwa [String.ofList_toList] at hself

/-! ## Whole lines

By induction on the words: the first one is taken, then the space, and the rest is read as the line
that it is. -/

/-- Some glyphs are read as tokens of the given kinds and texts, and no bad text comes. -/
def Undoes (words : List Spelling) (s : List Glyph) : Prop :=
  ∀ pos, ∃ tokens : List Token, lexFrom .eof s pos = ⟨tokens.map .token, none⟩ ∧
    tokens.map (fun t => (t.kind, t.text)) = words.map fun w => (w.kind, w.text)

/-- Blanks and a spelling in front are read as one token more. -/
theorem undoes_cons {w : Spelling} {words : List Spelling} {t : List Glyph} (ht : Stops t)
    (h : Undoes words t) (blanks : List Glyph) (hblanks : ∀ g ∈ blanks, isBlank g.read = true) :
    Undoes (w :: words) (blanks ++ (Glyph.ofString w.written ++ t)) := by
  intro pos
  obtain ⟨c, rest, hwritten, hc, hfinds⟩ := taken_spelling w
  obtain ⟨next, hnext⟩ := hfinds (pos.right blanks.length) t ht
  have hrun : run isBlank (blanks ++ (.char c :: (rest.map .char ++ t))) =
      (blanks, .char c :: (rest.map .char ++ t)) := by
    rw [run, List.takeWhile_append_of_pos hblanks, List.dropWhile_append_of_pos hblanks]
    simp [Glyph.read, hc]
  -- the first step passes the blanks and finds the token
  have hscan : scan .eof (blanks ++ (Glyph.ofString w.written ++ t)) pos =
      .found (tokenAt (pos.right blanks.length) w.kind w.text) t next := by
    rw [Glyph.ofString, hwritten, List.map_cons, List.cons_append, scan, hrun]
    exact hnext
  obtain ⟨tokens, hlex, htokens⟩ := h next
  let token : Token := ⟨w.kind, w.text, pos.line, (pos.right blanks.length).col⟩
  refine ⟨token :: tokens, ?_, ?_⟩
  · rw [lexFrom_of_found hscan, hlex]
    rfl
  · rw [List.map_cons, List.map_cons, htokens]

/-- What stands behind the first of some spellings, with the spaces. -/
def behind (words : List Spelling) : List Glyph :=
  words.flatMap fun w => .char ' ' :: Glyph.ofString w.written

/-- Behind a word there is nothing or a space. -/
theorem stops_behind (words : List Spelling) : Stops (behind words) := by
  cases words with
  | nil => nofun
  | cons w words =>
    rintro g ⟨rfl⟩
    rfl

/-- Words with a space in front of each are read as their tokens. -/
theorem undoes_behind (words : List Spelling) : Undoes words (behind words) := by
  induction words with
  | nil => exact fun pos => ⟨[], lexFrom_of_finished rfl, rfl⟩
  | cons w words ih =>
    have hspace : ∀ g ∈ [Glyph.char ' '], isBlank g.read = true := by decide
    simpa [behind] using undoes_cons (stops_behind words) ih _ hspace

/-- A line is its first word and what stands behind it. -/
theorem ofString_line (w : Spelling) (words : List Spelling) :
    Glyph.ofString (Spelling.line (w :: words)) = Glyph.ofString w.written ++ behind words := by
  induction words generalizing w with
  | nil => simp [Spelling.line, behind]
  | cons w' words ih =>
    have hline : Spelling.line (w :: w' :: words) = w.written ++ " " ++ Spelling.line (w' :: words) :=
      String.intercalate_cons_cons
    have hspace : Glyph.ofString " " = [.char ' '] := rfl
    have happend : ∀ a b, Glyph.ofString (a ++ b) = Glyph.ofString a ++ Glyph.ofString b := by
      intro a b
      simp [Glyph.ofString]
    rw [hline, happend, happend, ih, hspace]
    simp [behind]

/-- A line is read as the tokens of its words. -/
theorem undoes_line (words : List Spelling) : Undoes words (Glyph.ofString (Spelling.line words)) := by
  cases words with
  | nil => exact fun pos => ⟨[], lexFrom_of_finished rfl, rfl⟩
  | cons w words =>
    have hundoes := undoes_cons (w := w) (stops_behind words) (undoes_behind words) [] nofun
    rwa [List.nil_append, ← ofString_line] at hundoes

end Lexer

/-- Tokens that are written with one space between neighbours are read back, with their kinds and texts and in
their order, and reading does not stop before the end. -/
theorem lex_line (words : List Spelling) :
    ∃ tokens : List Token, lex (.ofString (Spelling.line words)) = ⟨tokens.map .token, none⟩ ∧
      tokens.map (fun t => (t.kind, t.text)) = words.map fun w => (w.kind, w.text) :=
  undoes_line words {}

end ScriptPir

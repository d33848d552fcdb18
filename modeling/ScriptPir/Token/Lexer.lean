import ScriptPir.Text.Glyph
import ScriptPir.Text.Quoted
import ScriptPir.Token

/-!
# From glyphs to tokens

`lex` reads a source as a list of lexemes: tokens, and comments, which keep their glyphs as read.
One step, `scan`, takes blanks and one lexeme off the front; it never looks at what it has passed.
Reading stops at the first thing that is no lexeme, which is reported apart from the list, so a
fault can only be the last thing there is.

Main statement: every step that goes on leaves strictly less to read (`scan_rest_lt`), which is why
`lex` ends.
-/

namespace ScriptPir

/-- Why a source cannot be read on. -/
inductive LexFault where
  /-- Reading the source failed. -/
  | readFailure (message : String)
  /-- The source ended inside a string, a comment block or a block of target code. -/
  | unterminated
  | invalidCharacter (c : Char)
  /-- A dollar sign without a name. -/
  | globalNameExpected
  | invalidNumber (text : String)
deriving DecidableEq, Repr

/-- What is said of input that ended too early. -/
def unexpectedEnd : String := "unexpected EOF"

/-- The text of a fault. -/
def LexFault.message : LexFault → String
  | readFailure message => message
  | unterminated => unexpectedEnd
  | invalidCharacter c => "lexer encountered invalid character " ++ Text.quoteChar c
  | globalNameExpected => "global variable name expected after $"
  | invalidNumber text => "invalid numeric literal " ++ text

/-- The fault of a construct that the end of the source cuts short. -/
def Ending.cutShort : Ending → LexFault
  | .eof => .unterminated
  | .failure message => .readFailure message

/-- A place in a source. -/
structure Position where
  line : Int := 1
  col : Int := 1
deriving DecidableEq, Repr, Inhabited

namespace Position

/-- The place `n` columns further on the same line. -/
def right (p : Position) (n : Nat) : Position := ⟨p.line, p.col + n⟩

/-- The start of the line `n` lines below. -/
def below (p : Position) (n : Nat) : Position := ⟨p.line + n, 1⟩

/-- The place after a glyph: a line feed starts a line, anything else takes one column. -/
def after (p : Position) (g : Glyph) : Position :=
  if g.read = '\n' then p.below 1 else p.right 1

/-- The place after some glyphs. -/
def afterAll (p : Position) (glyphs : List Glyph) : Position := glyphs.foldl after p

end Position

/-- Something read from a source. -/
inductive Lexeme where
  | token (t : Token)
  /-- A comment, which has no meaning. -/
  | comment (body : List Glyph) (pos : Position)
deriving DecidableEq, Repr

/-- The glyphs of a lexeme, as they are reported when the lexeme turns out bad. -/
def Lexeme.body : Lexeme → List Glyph
  | token t => Glyph.ofString t.text
  | comment body _ => body

/-- Text at which reading stopped, and why. -/
structure BadLexeme where
  body : List Glyph
  pos : Position
  fault : LexFault
deriving DecidableEq, Repr

/-- Everything read from a source. -/
structure Lexed where
  lexemes : List Lexeme := []
  bad : Option BadLexeme := none
deriving DecidableEq, Repr

namespace Lexer

/-! ## Character classes -/

def isBlank (c : Char) : Bool := c ∈ [' ', '\r', '\x0C', '\t', '\x0B']

def isDigit (c : Char) : Bool := '0' ≤ c && c ≤ '9'

def isHexDigit (c : Char) : Bool := isDigit c || ('a' ≤ c && c ≤ 'f') || ('A' ≤ c && c ≤ 'F')

/-- Whether a character can start an identifier: letters, the underscore, all beyond ASCII. -/
def isIdentStart (c : Char) : Bool :=
  ('a' ≤ c && c ≤ 'z') || ('A' ≤ c && c ≤ 'Z') || c = '_' || 0x80 ≤ c.toNat

/-- Whether a character can go on in an identifier. -/
def isIdentRest (c : Char) : Bool := isIdentStart c || isDigit c || c = '?'

/-- Whether a character can start an operator. -/
def isOpStart (c : Char) : Bool := c ∈ ['+', '-', '*', '/', '%', '=', '<', '>', '!', '&', '|', ':']

/-- The operators, longer ones before their own beginnings. -/
def operators : List String :=
  ["**=", "**", "+=", "-=", "*=", "/=", "%=", "==", "!=", "<=", ">=", "&&", "||",
    "+", "-", "*", "/", "%", "=", "<", ">", "!", "&", "|", ":"]

/-! ## Runs -/

/-- The longest beginning of glyphs in a class, and the rest. -/
def run (p : Char → Bool) (s : List Glyph) : List Glyph × List Glyph :=
  (s.takeWhile (p ·.read), s.dropWhile (p ·.read))

/-- The text a list of glyphs starts with, as far as `n` glyphs tell. -/
def ahead (n : Nat) (s : List Glyph) : List Char := (s.take n).map Glyph.read

/-- Whether a list of glyphs starts with a text. -/
def startsWith (word : String) (s : List Glyph) : Bool := ahead word.length s = word.toList

/-! ## One step -/

/-- The outcome of a step. -/
inductive Scan where
  /-- The source is over. -/
  | finished
  /-- Only a line continuation was there. -/
  | skipped (rest : List Glyph) (pos : Position)
  | found (lexeme : Lexeme) (rest : List Glyph) (pos : Position)
  | bad (b : BadLexeme)

/-- What is left to read after a step that goes on. -/
def Scan.rest? : Scan → Option (List Glyph)
  | skipped rest _ | found _ rest _ => some rest
  | finished | bad _ => none

/--
A lexeme whose end was found by looking at the next glyph. If there is none because reading failed,
the lexeme is bad.
-/
def settle (ending : Ending) (pos : Position) (lexeme : Lexeme) (rest : List Glyph)
    (next : Position) : Scan :=
  match rest, ending with
  | [], .failure message => .bad ⟨lexeme.body, pos, .readFailure message⟩
  | rest, _ => .found lexeme rest next

/-- A token of a given kind at a place. -/
def tokenAt (pos : Position) (kind : TokenKind) (text : String) : Lexeme :=
  .token ⟨kind, text, pos.line, pos.col⟩

/-- A token that is complete in itself, of one character. -/
def single (pos : Position) (kind : TokenKind) (c : Char) (rest : List Glyph) : Scan :=
  .found (tokenAt pos kind c.toString) rest (pos.after (.char c))

/-- A token that starts with `first` and runs on as long as a class allows. -/
def scanRun (ending : Ending) (pos : Position) (kind : TokenKind) (p : Char → Bool)
    (first : Glyph) (s : List Glyph) : Scan :=
  let (body, rest) := run p s
  let text := Glyph.text (first :: body)
  settle ending pos (tokenAt pos kind text) rest (pos.right text.utf8ByteSize)

/-- A global variable; `s` follows the dollar sign. -/
def scanGlobal (ending : Ending) (pos : Position) (s : List Glyph) : Scan :=
  match run isIdentRest s with
  | ([], _) => .bad ⟨[.char '$'], pos, .globalNameExpected⟩
  | _ => scanRun ending pos .global isIdentRest (.char '$') s

/-- The longest operator at the front of `c :: s`. -/
def scanOp (pos : Position) (c : Char) (s : List Glyph) : Scan :=
  let front := c :: ahead 2 s
  match operators.find? (·.toList.isPrefixOf front) with
  | some op => .found (tokenAt pos .op op) (s.drop (op.length - 1)) (pos.right op.length)
  | none => .bad ⟨[.char c], pos, .invalidCharacter c⟩

/-- A comment to the end of the line; `s` follows the number sign. -/
def scanLineComment (ending : Ending) (pos : Position) (s : List Glyph) : Scan :=
  let (body, rest) := run (· ≠ '\n') s
  let text := Glyph.text (.char '#' :: body)
  settle ending pos (.comment (Glyph.ofString text) pos) rest (pos.right text.utf8ByteSize)

/-- The glyphs through the next line feed, and the rest. -/
def takeLine : List Glyph → List Glyph × List Glyph
  | [] => ([], [])
  | g :: s =>
    if g.read = '\n' then ([g], s)
    else
      let (line, rest) := takeLine s
      (g :: line, rest)

/--
The glyphs through the line that starts with `=end`, and the rest. `lineStart` says whether a line
starts here.
-/
def takeBlock (lineStart : Bool) : List Glyph → Option (List Glyph × List Glyph)
  | [] => none
  | g :: s =>
    if lineStart && startsWith "=end" (g :: s) then some (takeLine (g :: s))
    else (takeBlock (g.read = '\n') s).map fun (body, rest) => (g :: body, rest)

/-- A block comment. The words `=begin` and `=end` both start a line. -/
def scanBlockComment (ending : Ending) (pos : Position) (g : Glyph) (s : List Glyph) : Scan :=
  match takeBlock false s with
  | none => .bad ⟨g :: s, pos, ending.cutShort⟩
  | some (body, rest) =>
    let lines := body.countP (·.read = '\n')
    let comment := Lexeme.comment
      ((g :: body).reverse.dropWhile (·.read = '\n')).reverse pos
    match body.getLast? with
    | some last =>
      if last.read = '\n' then .found comment rest (pos.below lines)
      else settle ending pos comment rest (pos.below lines)
    | none => settle ending pos comment rest (pos.below lines)

/-- The glyphs before the brace that closes `depth` open ones, and what follows it. -/
def takeBraced : (depth : Nat) → List Glyph → Option (List Glyph × List Glyph)
  | _, [] => none
  | depth, g :: s =>
    let inner := fun d => (takeBraced d s).map fun (body, rest) => (g :: body, rest)
    if g.read = '\x7b' then inner (depth + 1)
    else if g.read = '\x7d' then
      match depth with
      | 0 | 1 => some ([], s)
      | depth + 2 => inner (depth + 1)
    else inner depth

/-- The words that open a block of target code. -/
def pirOpening : String := "%pir\x7b"

/-- A block of target code. Its braces nest; `s` follows the opening brace. -/
def scanPir (ending : Ending) (pos : Position) (s : List Glyph) : Scan :=
  match takeBraced 1 s with
  | none =>
    .bad ⟨Glyph.ofString (pirOpening ++ Glyph.text s), pos, ending.cutShort⟩
  | some (body, rest) =>
    .found (tokenAt pos .pir (Glyph.text body)) rest
      (((pos.right pirOpening.length).afterAll body).right 1)

/--
The glyphs through the closing quote, and the rest. A backslash takes the meaning of the quote or
the backslash after it.
-/
def takeQuoted (mark : Char) (escaped : Bool) : List Glyph → Option (List Glyph × List Glyph)
  | [] => none
  | g :: s =>
    let inner := fun e => (takeQuoted mark e s).map fun (body, rest) => (g :: body, rest)
    if g.read = '\\' then inner (!escaped)
    else if g.read = mark && !escaped then some ([g], s)
    else inner false

/-- A string, kept as written; `s` follows the opening quote. -/
def scanString (ending : Ending) (pos : Position) (mark : Char) (s : List Glyph) : Scan :=
  match takeQuoted mark false s with
  | none => .bad ⟨Glyph.ofString (Glyph.text (.char mark :: s)), pos, ending.cutShort⟩
  | some (body, rest) =>
    .found (tokenAt pos .string (Glyph.text (.char mark :: body))) rest
      ((pos.right 1).afterAll body)

/-- The sign at the front of an exponent, if there is one, and the rest. -/
def takeSign : List Glyph → List Glyph × List Glyph
  | [] => ([], [])
  | g :: s => if g.read = '-' || g.read = '+' then ([g], s) else ([], g :: s)

/-- The exponent of a number with the given mantissa; `s` follows the letter. -/
def scanExponent (ending : Ending) (pos : Position) (mantissa : String) (s : List Glyph) : Scan :=
  let (sign, s) := takeSign s
  let (digits, rest) := run isDigit s
  let text := mantissa ++ "e" ++ Glyph.text (sign ++ digits)
  if digits = [] then .bad ⟨Glyph.ofString text, pos, .invalidNumber text⟩
  else settle ending pos (tokenAt pos .float text) rest (pos.right text.utf8ByteSize)

/-- A number of a given kind, unless an exponent follows. -/
def scanMantissa (ending : Ending) (pos : Position) (kind : TokenKind) (text : String)
    (rest : List Glyph) : Scan :=
  match rest with
  | g :: s =>
    if g.read = 'e' || g.read = 'E' then scanExponent ending pos text s
    else .found (tokenAt pos kind text) rest (pos.right text.utf8ByteSize)
  | [] => settle ending pos (tokenAt pos kind text) rest (pos.right text.utf8ByteSize)

/-- The digits of a hexadecimal number; `s` follows the letter x. -/
def scanHex (ending : Ending) (pos : Position) (s : List Glyph) : Scan :=
  let (digits, rest) := run isHexDigit s
  let text := "0x" ++ Glyph.text digits
  if digits = [] then .bad ⟨Glyph.ofString text, pos, .invalidNumber text⟩
  else settle ending pos (tokenAt pos .int text) rest (pos.right text.utf8ByteSize)

/-- A number that starts with the digit `first`. -/
def scanNumber (ending : Ending) (pos : Position) (first : Glyph) (s : List Glyph) : Scan :=
  let (digits, rest) := run (fun c => isDigit c || c = '_') s
  let whole := Glyph.text (first :: digits)
  match rest with
  | [] => settle ending pos (tokenAt pos .int whole) rest (pos.right whole.utf8ByteSize)
  | g :: after =>
    if g.read = 'x' || g.read = 'X' then
      if whole = "0" then scanHex ending pos after
      else .bad ⟨Glyph.ofString whole, pos, .invalidNumber (whole ++ g.read.toString)⟩
    else if g.read = '.' then
      -- A fraction needs a digit after the point; otherwise the point is not part of the number.
      let (fraction, rest') := run isDigit after
      if fraction = [] then .found (tokenAt pos .int whole) rest (pos.right whole.utf8ByteSize)
      else scanMantissa ending pos .float (whole ++ "." ++ Glyph.text fraction) rest'
    else scanMantissa ending pos .int whole rest

/-- The lexeme at the front of `g :: s`, which does not start with a blank. -/
def scanLexeme (ending : Ending) (pos : Position) (g : Glyph) (s : List Glyph) : Scan :=
  let c := g.read
  if c = ';' || c = '\n' then single pos .semi c s
  else if c = '\\' && startsWith "\n" s then .skipped (s.drop 1) (pos.below 1)
  else if c = '=' && pos.col = 1 && startsWith "begin" s then scanBlockComment ending pos g s
  else if isIdentStart c then scanRun ending pos .ident isIdentRest g s
  else if c = '$' then scanGlobal ending pos s
  else if c = '%' && startsWith "pir\x7b" s then scanPir ending pos (s.drop 4)
  else if isOpStart c then scanOp pos c s
  else if c = '(' || c = '[' then single pos .opening c s
  else if c = ')' || c = ']' then single pos .closing c s
  else if c = ',' then single pos .comma c s
  else if isDigit c then scanNumber ending pos g s
  else if c = '\'' || c = '"' then scanString ending pos c s
  else if c = '#' then scanLineComment ending pos s
  else .bad ⟨[.char c], pos, .invalidCharacter c⟩

/-- Takes blanks and one lexeme off the front of a source. -/
def scan (ending : Ending) (s : List Glyph) (pos : Position) : Scan :=
  let (blanks, rest) := run isBlank s
  let pos := pos.right blanks.length
  match rest, ending with
  | [], .eof => .finished
  | [], .failure message => .bad ⟨[.char '\x00'], pos, .readFailure message⟩
  | g :: s, ending => scanLexeme ending pos g s

/-! ## Every step makes progress

The lexer calls itself on what a step has left, so the steps have to leave fewer glyphs than there
were. Each function below leaves no more than it was given, and the first glyph is gone by then. -/

theorem run_snd_length_le (p : Char → Bool) (s : List Glyph) : (run p s).2.length ≤ s.length := by
  simpa [run] using (List.dropWhile_suffix (p ·.read) (l := s)).length_le

/-- A sign leaves no more than there was. -/
theorem takeSign_snd_length_le (s : List Glyph) : (takeSign s).2.length ≤ s.length := by
  unfold takeSign
  split
  · simp
  · split <;> simp

/-- A line leaves no more than there was. -/
theorem takeLine_snd_length_le (s : List Glyph) : (takeLine s).2.length ≤ s.length := by
  induction s with
  | nil => simp [takeLine]
  | cons g s ih =>
    unfold takeLine
    split
    · simp
    · simp only [List.length_cons]; omega

/-- A block comment leaves no more than there was. -/
theorem takeBlock_length_le {lineStart : Bool} {s body rest : List Glyph}
    (h : takeBlock lineStart s = some (body, rest)) : rest.length ≤ s.length := by
  induction s generalizing lineStart body rest with
  | nil => simp [takeBlock] at h
  | cons g s ih =>
    unfold takeBlock at h
    split at h
    · have := takeLine_snd_length_le (g :: s)
      simp_all
    · simp only [Option.map_eq_some_iff, Prod.mk.injEq, Prod.exists] at h
      obtain ⟨b, r, hb, -, rfl⟩ := h
      have := ih hb
      simp only [List.length_cons]; omega

/-- Target code leaves no more than there was. -/
theorem takeBraced_length_le {depth : Nat} {s body rest : List Glyph}
    (h : takeBraced depth s = some (body, rest)) : rest.length ≤ s.length := by
  induction s generalizing depth body rest with
  | nil => simp [takeBraced] at h
  | cons g s ih =>
    -- a character inside is kept, and the rest is that of the recursion
    have inner : ∀ d, (takeBraced d s).map (fun (b, r) => (g :: b, r)) = some (body, rest) →
        rest.length ≤ s.length := by
      intro d hd
      simp only [Option.map_eq_some_iff, Prod.mk.injEq, Prod.exists] at hd
      obtain ⟨b, r, hb, -, rfl⟩ := hd
      exact ih hb
    unfold takeBraced at h
    simp only [List.length_cons]
    split at h
    · have := inner _ h; omega
    · split at h
      · split at h
        · simp at h; simp [← h.2]
        · simp at h; simp [← h.2]
        · have := inner _ h; omega
      · have := inner _ h; omega

/-- A string leaves no more than there was. -/
theorem takeQuoted_length_le {mark : Char} {escaped : Bool} {s body rest : List Glyph}
    (h : takeQuoted mark escaped s = some (body, rest)) : rest.length ≤ s.length := by
  induction s generalizing escaped body rest with
  | nil => simp [takeQuoted] at h
  | cons g s ih =>
    have inner : ∀ e, (takeQuoted mark e s).map (fun (b, r) => (g :: b, r)) = some (body, rest) →
        rest.length ≤ s.length := by
      intro d hd
      simp only [Option.map_eq_some_iff, Prod.mk.injEq, Prod.exists] at hd
      obtain ⟨b, r, hb, -, rfl⟩ := hd
      exact ih hb
    unfold takeQuoted at h
    simp only [List.length_cons]
    split at h
    · have := inner _ h; omega
    · split at h
      · simp at h; simp [← h.2]
      · have := inner _ h; omega

/-- A step leaves at most `n` glyphs to read. -/
structure Scan.LeavesAtMost (n : Nat) (r : Scan) : Prop where
  length_le : ∀ rest, r.rest? = some rest → rest.length ≤ n

theorem leavesAtMost_bad {n : Nat} {b : BadLexeme} : (Scan.bad b).LeavesAtMost n :=
  ⟨by simp [Scan.rest?]⟩

theorem leavesAtMost_found {n : Nat} {l : Lexeme} {rest : List Glyph} {p : Position}
    (h : rest.length ≤ n) : (Scan.found l rest p).LeavesAtMost n :=
  ⟨by simpa [Scan.rest?] using h⟩

theorem leavesAtMost_ite {n : Nat} {c : Prop} [Decidable c] {a b : Scan} (ha : a.LeavesAtMost n)
    (hb : b.LeavesAtMost n) : (if c then a else b).LeavesAtMost n := by
  split <;> assumption

/-- A lexeme in front of the rest of the input leaves that rest. -/
theorem leavesAtMost_settle {n : Nat} {e : Ending} {p q : Position} {l : Lexeme}
    {rest : List Glyph} (h : rest.length ≤ n) : (settle e p l rest q).LeavesAtMost n := by
  unfold settle
  split
  · exact leavesAtMost_bad
  · exact leavesAtMost_found h

/-- A run of characters leaves no more than there was behind the first. -/
theorem leavesAtMost_scanRun (e : Ending) (p : Position) (k : TokenKind) (c : Char → Bool)
    (g : Glyph) (s : List Glyph) : (scanRun e p k c g s).LeavesAtMost s.length :=
  leavesAtMost_settle (run_snd_length_le c s)

/-- A global leaves no more than there was behind its dollar sign. -/
theorem leavesAtMost_scanGlobal (e : Ending) (p : Position) (s : List Glyph) :
    (scanGlobal e p s).LeavesAtMost s.length := by
  unfold scanGlobal
  split
  · exact leavesAtMost_bad
  · exact leavesAtMost_scanRun ..

/-- An operator leaves no more than there was behind its first character. -/
theorem leavesAtMost_scanOp (p : Position) (c : Char) (s : List Glyph) :
    (scanOp p c s).LeavesAtMost s.length := by
  unfold scanOp
  simp only
  split
  · exact leavesAtMost_found (by simp)
  · exact leavesAtMost_bad

/-- A comment leaves no more than there was behind its number sign. -/
theorem leavesAtMost_scanLineComment (e : Ending) (p : Position) (s : List Glyph) :
    (scanLineComment e p s).LeavesAtMost s.length :=
  leavesAtMost_settle (run_snd_length_le (· ≠ '\n') s)

/-- A block comment leaves no more than there was behind its equals sign. -/
theorem leavesAtMost_scanBlockComment (e : Ending) (p : Position) (g : Glyph) (s : List Glyph) :
    (scanBlockComment e p g s).LeavesAtMost s.length := by
  unfold scanBlockComment
  split
  · exact leavesAtMost_bad
  · rename_i h
    have hle := takeBlock_length_le h
    split
    · split
      · exact leavesAtMost_found hle
      · exact leavesAtMost_settle hle
    · exact leavesAtMost_settle hle

/-- Target code leaves no more than there was behind its opening brace. -/
theorem leavesAtMost_scanPir (e : Ending) (p : Position) (s : List Glyph) :
    (scanPir e p s).LeavesAtMost s.length := by
  unfold scanPir
  split
  · exact leavesAtMost_bad
  · rename_i h
    exact leavesAtMost_found (takeBraced_length_le h)

/-- A string leaves no more than there was behind its mark. -/
theorem leavesAtMost_scanString (e : Ending) (p : Position) (m : Char) (s : List Glyph) :
    (scanString e p m s).LeavesAtMost s.length := by
  unfold scanString
  split
  · exact leavesAtMost_bad
  · rename_i h
    exact leavesAtMost_found (takeQuoted_length_le h)

/-- What leaves at most some number of glyphs leaves at most a larger one. -/
theorem leavesAtMost_mono {m n : Nat} {r : Scan} (h : r.LeavesAtMost m) (hle : m ≤ n) :
    r.LeavesAtMost n :=
  ⟨fun rest hr => Nat.le_trans (h.length_le rest hr) hle⟩

/-- An exponent leaves no more than there was behind its letter. -/
theorem leavesAtMost_scanExponent (e : Ending) (p : Position) (m : String) (s : List Glyph) :
    (scanExponent e p m s).LeavesAtMost s.length := by
  unfold scanExponent
  simp only
  split
  · exact leavesAtMost_bad
  · apply leavesAtMost_settle
    exact Nat.le_trans (run_snd_length_le _ _) (takeSign_snd_length_le s)

/-- A mantissa leaves no more than there was behind it. -/
theorem leavesAtMost_scanMantissa (e : Ending) (p : Position) (k : TokenKind) (t : String)
    (s : List Glyph) : (scanMantissa e p k t s).LeavesAtMost s.length := by
  unfold scanMantissa
  split
  · split
    · exact leavesAtMost_mono (leavesAtMost_scanExponent ..) (by simp)
    · exact leavesAtMost_found (Nat.le_refl _)
  · exact leavesAtMost_settle (Nat.le_refl _)

/-- A number in hexadecimal leaves no more than there was behind its letter. -/
theorem leavesAtMost_scanHex (e : Ending) (p : Position) (s : List Glyph) :
    (scanHex e p s).LeavesAtMost s.length := by
  unfold scanHex
  simp only
  split
  · exact leavesAtMost_bad
  · exact leavesAtMost_settle (run_snd_length_le _ s)

/-- A number leaves no more than there was behind its first digit. -/
theorem leavesAtMost_scanNumber (e : Ending) (p : Position) (g : Glyph) (s : List Glyph) :
    (scanNumber e p g s).LeavesAtMost s.length := by
  have hle := run_snd_length_le (fun c => isDigit c || c = '_') s
  unfold scanNumber
  simp only
  split
  · rename_i h
    exact leavesAtMost_settle hle
  · rename_i g' after h
    rw [h] at hle
    simp only [List.length_cons] at hle
    split
    · split
      · exact leavesAtMost_mono (leavesAtMost_scanHex ..) (by omega)
      · exact leavesAtMost_bad
    · split
      · split
        · exact leavesAtMost_found (by rw [h]; simp only [List.length_cons]; omega)
        · refine leavesAtMost_mono (leavesAtMost_scanMantissa ..) ?_
          have := run_snd_length_le isDigit after
          omega
      · exact leavesAtMost_mono (leavesAtMost_scanMantissa ..)
          (by rw [h]; simp only [List.length_cons]; omega)

/-- A lexeme leaves no more than there was behind its first glyph. -/
theorem leavesAtMost_scanLexeme (e : Ending) (p : Position) (g : Glyph) (s : List Glyph) :
    (scanLexeme e p g s).LeavesAtMost s.length := by
  have single_le : ∀ k c, (single p k c s).LeavesAtMost s.length :=
    fun k c => leavesAtMost_found (Nat.le_refl _)
  -- branch by branch, in the order in which the kinds of lexemes are told apart
  unfold scanLexeme
  refine leavesAtMost_ite (single_le _ _) ?_
  refine leavesAtMost_ite ⟨by simp [Scan.rest?]⟩ ?_
  refine leavesAtMost_ite (leavesAtMost_scanBlockComment ..) ?_
  refine leavesAtMost_ite (leavesAtMost_scanRun ..) ?_
  refine leavesAtMost_ite (leavesAtMost_scanGlobal ..) ?_
  refine leavesAtMost_ite (leavesAtMost_mono (leavesAtMost_scanPir ..) (by simp)) ?_
  refine leavesAtMost_ite (leavesAtMost_scanOp ..) ?_
  refine leavesAtMost_ite (single_le _ _) ?_
  refine leavesAtMost_ite (single_le _ _) ?_
  refine leavesAtMost_ite (single_le _ _) ?_
  refine leavesAtMost_ite (leavesAtMost_scanNumber ..) ?_
  refine leavesAtMost_ite (leavesAtMost_scanString ..) ?_
  exact leavesAtMost_ite (leavesAtMost_scanLineComment ..) leavesAtMost_bad

/-- A step that goes on leaves less to read than there was. -/
theorem scan_rest_lt {e : Ending} {s rest : List Glyph} {p : Position}
    (h : (scan e s p).rest? = some rest) : rest.length < s.length := by
  have hle := run_snd_length_le isBlank s
  unfold scan at h
  simp only at h
  split at h
  · simp [Scan.rest?] at h
  · simp [Scan.rest?] at h
  · rename_i hs
    rw [hs] at hle
    simp only [List.length_cons] at hle
    have := (leavesAtMost_scanLexeme _ _ _ _).length_le rest h
    omega

/-- Reads lexemes from a place on. -/
def lexFrom (ending : Ending) (s : List Glyph) (pos : Position) : Lexed :=
  match h : scan ending s pos with
  | .finished => {}
  | .bad b => ⟨[], some b⟩
  | .skipped rest pos' =>
    have : rest.length < s.length := scan_rest_lt (by rw [h]; rfl)
    lexFrom ending rest pos'
  | .found lexeme rest pos' =>
    have : rest.length < s.length := scan_rest_lt (by rw [h]; rfl)
    let tail := lexFrom ending rest pos'
    ⟨lexeme :: tail.lexemes, tail.bad⟩
termination_by s.length

end Lexer

/-- Reads a source as a list of lexemes, up to the first thing that is none. -/
def lex (src : Source) : Lexed := Lexer.lexFrom src.ending src.glyphs {}

end ScriptPir

/-!
# Glyphs: source bytes read as characters

A source is a sequence of bytes that is meant to be UTF-8 but need not be. It is read as a list of
*glyphs*: a well-formed character, or a single byte that belongs to none. Nothing is lost, so the
bytes can be recovered (`Glyph.bytes`), and every glyph still has a character to look at
(`Glyph.read`), which is U+FFFD for a stray byte.
-/

namespace ScriptPir

/-- What is seen where one character of a source is expected. -/
inductive Glyph where
  /-- A well-formed character. -/
  | char (c : Char)
  /-- A byte that is not part of a well-formed character. -/
  | stray (b : UInt8)
deriving DecidableEq, Repr, Inhabited

namespace Glyph

/-- The character that stands for a byte which is not part of any character. -/
def replacement : Char := '\uFFFD'

/-- The character a glyph reads as. -/
def read : Glyph → Char
  | char c => c
  | stray _ => replacement

/-- The bytes a glyph was read from. -/
def bytes : Glyph → List UInt8
  | char c => String.utf8EncodeChar c
  | stray b => [b]

/-- Whether a byte continues a character of more than one byte. -/
def isContinuation (b : UInt8) : Bool := 0x80 ≤ b && b ≤ 0xBF

/-- The low six bits that a continuation byte adds to a character. -/
def payload (b : UInt8) : Nat := b.toNat % 64

/--
The glyph at the front of `b :: rest` and the number of bytes of `rest` that belong to it. Overlong
forms, surrogates and code points above U+10FFFF are not characters, so their first byte is stray.
-/
def leading (b : UInt8) (rest : List UInt8) : Glyph × Nat :=
  if b < 0x80 then (char (Char.ofNat b.toNat), 0)
  else match rest with
  | c :: rest =>
    if !isContinuation c then (stray b, 0)
    else if 0xC2 ≤ b && b ≤ 0xDF then
      (char (Char.ofNat (b.toNat % 32 * 64 + payload c)), 1)
    else match rest with
    | d :: rest =>
      if !isContinuation d then (stray b, 0)
      else if 0xE0 ≤ b && b ≤ 0xEF then
        let code := (b.toNat % 16 * 64 + payload c) * 64 + payload d
        if 0x800 ≤ code && !(0xD800 ≤ code && code ≤ 0xDFFF) then (char (Char.ofNat code), 2)
        else (stray b, 0)
      else match rest with
      | e :: _ =>
        let code := ((b.toNat % 8 * 64 + payload c) * 64 + payload d) * 64 + payload e
        if isContinuation e && 0xF0 ≤ b && b ≤ 0xF4 && 0x10000 ≤ code && code ≤ 0x10FFFF then
          (char (Char.ofNat code), 3)
        else (stray b, 0)
      | [] => (stray b, 0)
    | [] => (stray b, 0)
  | [] => (stray b, 0)

/-- Reads the glyphs after the first `skip` bytes, which belong to a glyph already read. -/
def ofBytesFrom : Nat → List UInt8 → List Glyph
  | _, [] => []
  | skip + 1, _ :: bytes => ofBytesFrom skip bytes
  | 0, b :: bytes =>
    let (glyph, width) := leading b bytes
    glyph :: ofBytesFrom width bytes

/-- Reads bytes as glyphs. -/
def ofBytes (bytes : List UInt8) : List Glyph := ofBytesFrom 0 bytes

/-- The glyphs of a text, all of them characters. -/
def ofString (s : String) : List Glyph := s.toList.map char

/-- The text that a list of glyphs reads as. -/
def text (glyphs : List Glyph) : String := String.ofList (glyphs.map read)

/-- The bytes that a list of glyphs was read from. -/
def toBytes (glyphs : List Glyph) : List UInt8 := glyphs.flatMap bytes

/-- The text of glyphs that are all characters. -/
def text? (glyphs : List Glyph) : Option String :=
  (glyphs.mapM fun | char c => some c | stray _ => none).map String.ofList

end Glyph

/-- How a source ends: its text is over, or reading on failed. -/
inductive Ending where
  | eof
  | failure (message : String)
deriving DecidableEq, Repr, Inhabited

/-- A source: what was read of it, and how reading ended. -/
structure Source where
  glyphs : List Glyph
  ending : Ending := .eof
deriving DecidableEq, Repr, Inhabited

/-- A source that holds a given text. -/
def Source.ofString (s : String) : Source := ⟨Glyph.ofString s, .eof⟩

end ScriptPir

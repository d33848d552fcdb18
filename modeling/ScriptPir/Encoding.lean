import ScriptPir.Text.Case
import ScriptPir.Text.Glyph
import ScriptPir.Text.Quoted

/-!
# Source encodings

A source is bytes in some encoding. UTF-8 is read as it is, so that stray bytes stay visible; the
other encodings give characters only, with U+FFFD for what they cannot read. A byte order mark at the
start of UTF-16 or UTF-32 decides the order of bytes and is dropped.
-/

namespace ScriptPir

/-- Bytes as they come from outside, and how they end. -/
structure Stream where
  bytes : List UInt8
  ending : Ending := .eof
deriving DecidableEq, Repr, Inhabited

/-- The bytes of a text. -/
def Stream.ofString (s : String) : Stream := ⟨s.toUTF8.toList, .eof⟩

/-- The order of the bytes of a unit. -/
inductive ByteOrder where
  | little
  | big
deriving DecidableEq, Repr

/-- A character encoding. -/
inductive Encoding where
  | utf8
  | windows1252
  | utf16 (order : ByteOrder)
  | utf32 (order : ByteOrder)
deriving DecidableEq, Repr

namespace Encoding

/-- The encoding of a given name. -/
def ofName? (name : String) : Option Encoding :=
  match Text.lower name with
  | "" | "utf-8" | "utf8" => some utf8
  | "latin1" | "latin-1" | "windows-1252" | "cp1252" => some windows1252
  | "utf-16le" | "utf16le" => some (utf16 .little)
  | "utf-16be" | "utf16be" => some (utf16 .big)
  | "utf-32le" | "utf32le" => some (utf32 .little)
  | "utf-32be" | "utf32be" => some (utf32 .big)
  | _ => none

/-- What is said of a name that names no encoding. -/
def unknownMessage (name : String) : String := "unknown encoding " ++ Text.quote name

/-- The code points of the bytes 80 to 9F in Windows-1252; five of them have none. -/
def windows1252High : List Nat :=
  [0x20AC, 0xFFFD, 0x201A, 0x0192, 0x201E, 0x2026, 0x2020, 0x2021,
    0x02C6, 0x2030, 0x0160, 0x2039, 0x0152, 0xFFFD, 0x017D, 0xFFFD,
    0xFFFD, 0x2018, 0x2019, 0x201C, 0x201D, 0x2022, 0x2013, 0x2014,
    0x02DC, 0x2122, 0x0161, 0x203A, 0x0153, 0xFFFD, 0x017E, 0x0178]

/-- The character of a byte in Windows-1252. -/
def windows1252Char (b : UInt8) : Char :=
  let n := b.toNat
  if 0x80 ≤ n ∧ n ≤ 0x9F then Char.ofNat (windows1252High.getD (n - 0x80) 0xFFFD)
  else Char.ofNat n

/-- The character of a code point, or U+FFFD if it has none. -/
def charOf (code : Nat) : Char := if code.isValidChar then Char.ofNat code else Glyph.replacement

/-- The unit of two bytes. -/
def unit16 (order : ByteOrder) (a b : UInt8) : Nat :=
  match order with
  | .big => a.toNat * 256 + b.toNat
  | .little => b.toNat * 256 + a.toNat

/-- Whether a unit is half of a surrogate pair. -/
def isSurrogate (u : Nat) : Bool := 0xD800 ≤ u && u ≤ 0xDFFF

/-- Whether a unit is the second half of a surrogate pair. -/
def isSecondHalf (u : Nat) : Bool := 0xDC00 ≤ u && u ≤ 0xDFFF

/-- The character of two surrogates; the first must be a first half. -/
def surrogatePair (u v : Nat) : Char :=
  if isSecondHalf u then Glyph.replacement
  else charOf (0x10000 + (u - 0xD800) * 0x400 + (v - 0xDC00))

/--
Reads UTF-16. A second half goes with the surrogate before it, whatever that is. What the end cuts
short reads as U+FFFD, unless reading failed, and then it is dropped.
-/
def decode16 (order : ByteOrder) (failed : Bool) : List UInt8 → List Char
  | a :: b :: c :: d :: rest =>
    let u := unit16 order a b
    let v := unit16 order c d
    if isSurrogate u && isSecondHalf v then surrogatePair u v :: decode16 order failed rest
    else charOf u :: decode16 order failed (c :: d :: rest)
  | [a, b, c] =>
    let u := unit16 order a b
    if failed && isSurrogate u then []
    else charOf u :: decode16 order failed [c]
  | [a, b] =>
    let u := unit16 order a b
    if failed && isSurrogate u then [] else [charOf u]
  | [_] => if failed then [] else [Glyph.replacement]
  | [] => []

/-- The unit of four bytes. -/
def unit32 (order : ByteOrder) (a b c d : UInt8) : Nat :=
  match order with
  | .big => ((a.toNat * 256 + b.toNat) * 256 + c.toNat) * 256 + d.toNat
  | .little => ((d.toNat * 256 + c.toNat) * 256 + b.toNat) * 256 + a.toNat

/-- Reads UTF-32. What the end cuts short is one U+FFFD, or dropped if reading failed. -/
def decode32 (order : ByteOrder) (failed : Bool) : List UInt8 → List Char
  | a :: b :: c :: d :: rest => charOf (unit32 order a b c d) :: decode32 order failed rest
  | [] => []
  | _ => if failed then [] else [Glyph.replacement]

/-- What is said of input that is too short to tell its byte order. -/
def tooShort : String := "transform: short source buffer"

/-- The bytes of UTF-16 after its byte order mark, and their order. -/
def mark16 (order : ByteOrder) : List UInt8 → ByteOrder × List UInt8
  | 0xFE :: 0xFF :: rest => (.big, rest)
  | 0xFF :: 0xFE :: rest => (.little, rest)
  | bytes => (order, bytes)

/-- The bytes of UTF-32 after its byte order mark, and their order. -/
def mark32 (order : ByteOrder) : List UInt8 → ByteOrder × List UInt8
  | 0x00 :: 0x00 :: 0xFE :: 0xFF :: rest => (.big, rest)
  | 0xFF :: 0xFE :: 0x00 :: 0x00 :: rest => (.little, rest)
  | bytes => (order, bytes)

/-- Reads bytes as a source. -/
def decode (e : Encoding) (s : Stream) : Source :=
  let failed := s.ending ≠ .eof
  let chars := fun (cs : List Char) => (⟨cs.map Glyph.char, s.ending⟩ : Source)
  match e with
  | utf8 => ⟨Glyph.ofBytes s.bytes, s.ending⟩
  | windows1252 => chars (s.bytes.map windows1252Char)
  | utf16 order =>
    let (order, bytes) := mark16 order s.bytes
    chars (decode16 order failed bytes)
  | utf32 order =>
    if s.bytes ≠ [] ∧ s.bytes.length < 4 then
      ⟨[], if failed then s.ending else .failure tooShort⟩
    else
      let (order, bytes) := mark32 order s.bytes
      chars (decode32 order failed bytes)

end Encoding

end ScriptPir

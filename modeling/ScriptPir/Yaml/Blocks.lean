import ScriptPir.Encoding
import ScriptPir.Yaml.Fault

/-!
# YAML: from bytes to blocks of characters

A text is UTF-8 unless it starts with a byte order mark of UTF-16. Its bytes are decoded block by block,
and a block with a defect has no characters at all. So a text can be read up to the block with its first
defect, and what stands there does not matter if reading ends before.
-/

namespace ScriptPir.Yaml

/-! ## Characters -/

/-- How the characters of a text are encoded. -/
inductive Coding where
  | utf8
  | utf16 (order : ByteOrder)
deriving DecidableEq, Repr

/-- What stands at the front of some bytes. -/
inductive Front where
  /-- A code point, and the number of its bytes. -/
  | code (n width : Nat)
  /-- The start of a character; if nothing follows, that is a defect. -/
  | part (p : Problem)
  | defect (p : Problem)
deriving DecidableEq, Repr

/-- The number of bytes of a character in UTF-8, by its first byte. -/
def width8? (b : UInt8) : Option Nat :=
  if b < 0x80 then some 1
  else if b < 0xC0 then none
  else if b < 0xE0 then some 2
  else if b < 0xF0 then some 3
  else if b < 0xF8 then some 4
  else none

/-- The first code point that needs some number of bytes in UTF-8. -/
def leastCode8 (width : Nat) : Nat :=
  if width ≤ 1 then 0 else if width = 2 then 0x80 else if width = 3 then 0x800 else 0x10000

/-- What stands at the front of some bytes in UTF-8. -/
def front8 (b : UInt8) (rest : List UInt8) : Front :=
  match width8? b with
  | none => .defect .leadingByte
  | some width =>
    let trail := rest.take (width - 1)
    let head := if width = 1 then b.toNat else b.toNat % Nat.pow 2 (7 - width)
    let code := trail.foldl (fun n c => n * 64 + Glyph.payload c) head
    if trail.length < width - 1 then .part .incomplete
    else if !trail.all Glyph.isContinuation then .defect .trailingByte
    else if code < leastCode8 width then .defect .overlong
    else if !code.isValidChar then .defect .noCharacter
    else .code code width

/-- What stands at the front of some bytes in UTF-16. -/
def front16 (order : ByteOrder) : List UInt8 → Front
  | a :: b :: rest =>
    let u := Encoding.unit16 order a b
    if Encoding.isSecondHalf u then .defect .lowSurrogate
    else if Encoding.isSurrogate u then
      match rest with
      | c :: d :: _ =>
        let v := Encoding.unit16 order c d
        if Encoding.isSecondHalf v then .code (Encoding.surrogatePair u v).toNat 4
        else .defect .highSurrogate
      | _ => .part .incompletePair
    else .code u 2
  | _ => .part .incompleteUnit

/-- What stands at the front of some bytes. -/
def front (coding : Coding) (b : UInt8) (rest : List UInt8) : Front :=
  match coding with
  | .utf8 => front8 b rest
  | .utf16 order => front16 order (b :: rest)

/-- Whether a character may stand in a YAML text. -/
def isAllowed (c : Char) : Bool :=
  let n := c.toNat
  n = 0x09 || n = 0x0A || n = 0x0D || (0x20 ≤ n && n ≤ 0x7E) || n = 0x85 ||
    (0xA0 ≤ n && n ≤ 0xD7FF) || (0xE000 ≤ n && n ≤ 0xFFFD) || 0x10000 ≤ n

/-! ## Blocks -/

/-- How many bytes are decoded at once. -/
def blockSize : Nat := 512

/-- The characters that some bytes hold, and what is left of an incomplete one at their end. -/
structure Block where
  chars : List Char := []
  left : List UInt8 := []
  /-- What is wrong with the left bytes if nothing follows them. -/
  partProblem : Problem := .incomplete
deriving DecidableEq, Repr

/-- Decodes bytes after the first `skip`, which belong to a character already read. -/
def decodeFrom (coding : Coding) : (skip : Nat) → List UInt8 → Except Problem Block
  | _, [] => .ok {}
  | skip + 1, _ :: bytes => decodeFrom coding skip bytes
  | 0, b :: bytes =>
    match front coding b bytes with
    | .defect p => .error p
    | .part p => .ok { left := b :: bytes, partProblem := p }
    | .code n width =>
      let c := Char.ofNat n
      if isAllowed c then
        (decodeFrom coding (width - 1) bytes).map fun block =>
          { block with chars := c :: block.chars }
      else .error .controlCharacter

/-- The blocks of a text before its first defect, and that defect. -/
structure Blocks where
  chars : List (List Char) := []
  defect : Option Problem := none
deriving DecidableEq, Repr

/-- Decodes a text, with a first block of `size` bytes. What is left of a block belongs to the next. -/
def blocksFrom (coding : Coding) : (fuel size : Nat) → List UInt8 → Blocks
  | 0, _, _ | _, _, [] => {}
  | fuel + 1, size, bytes =>
    match decodeFrom coding 0 (bytes.take size) with
    | .error p => { defect := some p }
    | .ok block =>
      let later := bytes.drop size
      if later.isEmpty && !block.left.isEmpty then
        { chars := [block.chars], defect := some block.partProblem }
      else
        let blocks := blocksFrom coding fuel blockSize (block.left ++ later)
        { blocks with chars := block.chars :: blocks.chars }

/-- The blocks of a text. A byte order mark at its start is part of the first block, and dropped. -/
def blocks (bytes : List UInt8) : Blocks :=
  let fuel := bytes.length + 1
  match bytes with
  | 0xFF :: 0xFE :: rest => blocksFrom (.utf16 .little) fuel (blockSize - 2) rest
  | 0xFE :: 0xFF :: rest => blocksFrom (.utf16 .big) fuel (blockSize - 2) rest
  | 0xEF :: 0xBB :: 0xBF :: rest => blocksFrom .utf8 fuel (blockSize - 3) rest
  | _ => blocksFrom .utf8 fuel blockSize bytes

end ScriptPir.Yaml

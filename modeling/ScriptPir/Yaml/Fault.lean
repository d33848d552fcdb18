import ScriptPir.Numeral.Decimal

/-!
# YAML: what can be wrong with a text

Faults in the bytes of a text have no line. Faults in its characters are counted from line one, but for
those on the first line, which are reported without a line. Faults in the order of its tokens are
counted from line zero, which is not reported either.
-/

namespace ScriptPir.Yaml

/-- How deep flow collections, and how deep block collections, may be nested. -/
def depthLimit : Nat := 10000

/-- What can be wrong with a text. -/
inductive Problem where
  | leadingByte
  | trailingByte
  | overlong
  | noCharacter
  | incomplete
  | incompleteUnit
  | incompletePair
  | lowSurrogate
  | highSurrogate
  | controlCharacter
  | tabIndent
  | noToken
  | colonExpected
  | valueHere
  | keyHere
  | entryHere
  | tooDeep
  | documentMark
  | unclosed
  | escape
  | hexDigit
  | codePoint
  | content
  | blockKey
  | dash
  | sequenceEnd
  | mappingEnd
  /-- Only mappings can be merged into a mapping. -/
  | merge
deriving DecidableEq, Repr

/-- The text of a problem. -/
def Problem.message : Problem → String
  | leadingByte => "invalid leading UTF-8 octet"
  | trailingByte => "invalid trailing UTF-8 octet"
  | overlong => "invalid length of a UTF-8 sequence"
  | noCharacter => "invalid Unicode character"
  | incomplete => "incomplete UTF-8 octet sequence"
  | incompleteUnit => "incomplete UTF-16 character"
  | incompletePair => "incomplete UTF-16 surrogate pair"
  | lowSurrogate => "unexpected low surrogate area"
  | highSurrogate => "expected low surrogate area"
  | controlCharacter => "control characters are not allowed"
  | tabIndent => "found a tab character that violates indentation"
  | noToken => "found character that cannot start any token"
  | colonExpected => "could not find expected ':'"
  | valueHere => "mapping values are not allowed in this context"
  | keyHere => "mapping keys are not allowed in this context"
  | entryHere => "block sequence entries are not allowed in this context"
  | tooDeep => "exceeded max depth of " ++ Numeral.ofNat depthLimit
  | documentMark => "found unexpected document indicator"
  | unclosed => "found unexpected end of stream"
  | escape => "found unknown escape character"
  | hexDigit => "did not find expected hexdecimal number"
  | codePoint => "found invalid Unicode character escape code"
  | content => "did not find expected node content"
  | blockKey => "did not find expected key"
  | dash => "did not find expected '-' indicator"
  | sequenceEnd => "did not find expected ',' or ']'"
  | mappingEnd => "did not find expected ',' or '\x7d'"
  | merge => "map merge requires map or sequence of maps as the value"

/-- Why a text is not read. -/
structure Fault where
  problem : Problem
  /-- The line that the message names; a fault on line zero is reported without a line. -/
  line : Nat := 0
deriving DecidableEq, Repr

/-- A fault in the characters of a line, which is counted from zero. -/
def Fault.inText (p : Problem) (line : Nat) : Fault := ⟨p, if line = 0 then 0 else line + 1⟩

/-- The text of a fault. -/
def Fault.message (f : Fault) : String :=
  "yaml: " ++ (if f.line = 0 then "" else "line " ++ Numeral.ofNat f.line ++ ": ") ++
    f.problem.message

end ScriptPir.Yaml

/-!
# Blank characters and lines

Text is trimmed and split by the Unicode property White_Space, not only by the ASCII blanks.
-/

namespace ScriptPir.Text

/-- Whether a character is white space in Unicode. -/
def isBlank (c : Char) : Bool :=
  let n := c.toNat
  (0x09 ≤ n && n ≤ 0x0D) || n == 0x20 || n == 0x85 || n == 0xA0 || n == 0x1680 ||
    (0x2000 ≤ n && n ≤ 0x200A) || n == 0x2028 || n == 0x2029 || n == 0x202F || n == 0x205F ||
    n == 0x3000

/-- Removes the characters of a class from both ends of a list. -/
def trimBy (p : Char → Bool) (s : List Char) : List Char :=
  ((s.dropWhile p).reverse.dropWhile p).reverse

/-- Removes white space from both ends of a text. -/
def trim (s : String) : String := String.ofList (trimBy isBlank s.toList)

/-- Splits a list at every occurrence of a separator; there is always at least one piece. -/
def splitOnChar (sep : Char) : List Char → List (List Char)
  | [] => [[]]
  | c :: cs =>
    if c = sep then [] :: splitOnChar sep cs
    else match splitOnChar sep cs with
    | piece :: pieces => (c :: piece) :: pieces
    | [] => [[c]]

/-- The pieces of a text between its line feeds. -/
def splitLines (s : String) : List String := (splitOnChar '\n' s.toList).map String.ofList

/-- The lines of a text, each without white space around it, blank lines left out. -/
def trimmedLines (s : String) : List String :=
  ((splitLines s).map trim).filter (· ≠ "")

end ScriptPir.Text

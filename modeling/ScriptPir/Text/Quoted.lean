import ScriptPir.Text.Printable

/-!
# Quoted text

Messages show a text between quotes. Printable characters stand for themselves; the quote and the
backslash are escaped by a backslash; the seven control characters with a name take their letter;
every other character is written as a hexadecimal number of two, four or eight digits.
-/

namespace ScriptPir.Text

/-- The hexadecimal digit of a number below sixteen, in lower case. -/
def hexDigit (n : Nat) : Char :=
  if n < 10 then Char.ofNat ('0'.toNat + n) else Char.ofNat ('a'.toNat + (n - 10))

/-- The last `width` hexadecimal digits of a number. -/
def hexDigits : (width n : Nat) → List Char
  | 0, _ => []
  | width + 1, n => hexDigits width (n / 16) ++ [hexDigit (n % 16)]

/-- The letter that names a control character after a backslash. -/
def controlLetter? (c : Char) : Option Char :=
  match c.toNat with
  | 0x07 => some 'a'
  | 0x08 => some 'b'
  | 0x09 => some 't'
  | 0x0A => some 'n'
  | 0x0B => some 'v'
  | 0x0C => some 'f'
  | 0x0D => some 'r'
  | _ => none

/-- One character as it is written between the quotes `mark`. -/
def escapeChar (mark c : Char) : List Char :=
  if c = mark ∨ c = '\\' then ['\\', c]
  else if isPrintable c then [c]
  else match controlLetter? c with
  | some letter => ['\\', letter]
  | none =>
    if c.toNat < 0x80 then '\\' :: 'x' :: hexDigits 2 c.toNat
    else if c.toNat < 0x10000 then '\\' :: 'u' :: hexDigits 4 c.toNat
    else '\\' :: 'U' :: hexDigits 8 c.toNat

/-- A text between the quotes `mark`. -/
def quoteWith (mark : Char) (s : List Char) : List Char :=
  mark :: s.flatMap (escapeChar mark) ++ [mark]

/-- A text between double quotes. -/
def quote (s : String) : String := String.ofList (quoteWith '"' s.toList)

/-- A single character between single quotes. -/
def quoteChar (c : Char) : String := String.ofList (quoteWith '\'' [c])

end ScriptPir.Text

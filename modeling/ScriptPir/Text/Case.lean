/-!
# Names without regard to case

Names of encodings and levels are compared in lower case. All of them are ASCII, and two characters
beyond ASCII have a lower case within it: U+0130 and U+212A.
-/

namespace ScriptPir.Text

/-- A character in lower case, as far as lower case leads into ASCII. -/
def lowerChar (c : Char) : Char :=
  match c.toNat with
  | 0x130 => 'i'
  | 0x212A => 'k'
  | _ => c.toLower

/-- A text in lower case, as far as lower case leads into ASCII. -/
def lower (s : String) : String := String.ofList (s.toList.map lowerChar)

end ScriptPir.Text

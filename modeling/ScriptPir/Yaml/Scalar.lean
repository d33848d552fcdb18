import ScriptPir.Yaml.Window

/-!
# YAML: the text of scalars

A scalar can go on over several lines. A single line end inside of it is read as a space; of several
line ends the first is dropped. Blanks around a line end are not part of the text.
-/

namespace ScriptPir.Yaml

/-! ## Gaps -/

/-- What stands between two words of a scalar. In its lists, the last character comes first. -/
structure Gap where
  /-- The blanks before the first line end. -/
  blanks : List Char := []
  /-- Whether there is a line end. -/
  broken : Bool := false
  /-- The first line end, unless it was escaped. -/
  first : Option Char := none
  /-- The other line ends. -/
  more : List Char := []
deriving DecidableEq, Repr

namespace Gap

/-- Adds a blank. Blanks after a line end do not count. -/
def addBlank (g : Gap) (c : Char) : Gap :=
  if g.broken then g else { g with blanks := c :: g.blanks }

/-- Adds a line end. -/
def addBreak (g : Gap) (c : Char) : Gap :=
  if g.broken then { g with more := c :: g.more }
  else { g with broken := true, first := some c }

/-- The text that a gap stands for, the last character first. -/
def text (g : Gap) : List Char :=
  if !g.broken then g.blanks
  else match g.first with
  | some '\n' => if g.more.isEmpty then [' '] else g.more
  | first => g.more ++ first.toList

end Gap

namespace Scan

/-- Reads on in a gap. After a line end, a tab may not stand left of the column `indent`. -/
def gapFrom (indent : Int) : (fuel : Nat) → Gap → Scan Gap
  | 0, gap => return gap
  | fuel + 1, gap => do
    let c ← here
    if isBlank c then
      if gap.broken && c = '\t' && ((← column) : Int) < indent then fail .tabIndent
      pass
      demand 1
      gapFrom indent fuel (gap.addBlank c)
    else if isBreak c then
      demand 2
      let c ← passBreak
      demand 1
      gapFrom indent fuel (gap.addBreak c)
    else return gap

/-- Reads on in a gap. -/
def gap (indent : Int) (start : Gap) : Scan Gap := do gapFrom indent (← get).limit start

/-! ## Quoted scalars -/

/-- The character that a letter after a backslash stands for. -/
def escapeChar? : Char → Option Char
  | '0' => some '\x00'
  | 'a' => some '\x07'
  | 'b' => some '\x08'
  | 't' | '\t' => some '\t'
  | 'n' => some '\n'
  | 'v' => some '\x0B'
  | 'f' => some '\x0C'
  | 'r' => some '\r'
  | 'e' => some '\x1B'
  | ' ' => some ' '
  | '"' => some '"'
  | '\'' => some '\''
  | '\\' => some '\\'
  | 'N' => some '\x85'
  | '_' => some '\xA0'
  | 'L' => some '\u2028'
  | 'P' => some '\u2029'
  | _ => none

/-- How many hexadecimal digits follow a letter after a backslash. -/
def escapeDigits? : Char → Option Nat
  | 'x' => some 2
  | 'u' => some 4
  | 'U' => some 8
  | _ => none

/-- The value of a hexadecimal digit. -/
def hexValue? (c : Char) : Option Nat := (Numeral.digitValue? c).filter (· < 16)

/-- Passes some hexadecimal digits, and gives the character that they stand for. -/
def escapeCode (width : Nat) : Scan Char := do
  demand width
  let w ← get
  match (List.range width).mapM fun i => hexValue? (w.look i) with
  | none => fail .hexDigit
  | some digits =>
    let code := digits.foldl (fun n d => n * 16 + d) 0
    if !code.isValidChar then fail .codePoint
    digits.forM fun _ => pass
    return Char.ofNat code

/-- Passes a backslash and what belongs to it, and gives the character that it stands for. -/
def escape : Scan Char := do
  let letter ← look 1
  match escapeChar? letter, escapeDigits? letter with
  | some c, _ =>
    pass
    pass
    return c
  | none, some width =>
    pass
    pass
    escapeCode width
  | none, none => fail .escape

/--
Reads a word of a quoted scalar onto `text`, which holds the characters before it, the last one first.
Tells whether the word ends with an escaped line end. Only between double quotes is a backslash special.
-/
def quotedWordFrom (quote : Char) : (fuel : Nat) → (text : List Char) → Scan (List Char × Bool)
  | 0, text => return (text, false)
  | fuel + 1, text => do
    let c ← here
    if isGap c then return (text, false)
    else if c = quote then
      if quote = '\'' && (← look 1) = quote then
        pass
        pass
        demand 2
        quotedWordFrom quote fuel (quote :: text)
      else return (text, false)
    else if quote = '"' && c = '\\' then
      if isBreak (← look 1) then
        demand 3
        pass
        let _ ← passBreak
        return (text, true)
      else
        let c ← escape
        demand 2
        quotedWordFrom quote fuel (c :: text)
    else
      pass
      demand 2
      quotedWordFrom quote fuel (c :: text)

/-- Reads on in a quoted scalar, up to its closing quote. -/
def quotedFrom (quote : Char) : (fuel : Nat) → (text : List Char) → Scan (List Char)
  | 0, text => return text
  | fuel + 1, text => do
    demand 4
    if (← get).atDocumentMark then fail .documentMark
    if isEnd (← here) then fail .unclosed
    let (text, broken) ← quotedWordFrom quote (← get).limit text
    demand 1
    if (← here) = quote then
      pass
      return text
    let g ← gap 0 { broken }
    quotedFrom quote fuel (g.text ++ text)

/-- Reads a scalar between quotes. -/
def quoted (quote : Char) : Scan String := do
  pass
  return String.ofList (← quotedFrom quote (← get).limit []).reverse

/-! ## Plain scalars -/

/-- Whether a character is part of the flow style. -/
def isFlowMark (c : Char) : Bool :=
  c = ',' || c = '?' || c = '[' || c = ']' || c = '{' || c = '}'

/-- Reads a word of a plain scalar; its last character comes first. -/
def plainWordFrom (inFlow : Bool) : (fuel : Nat) → (word : List Char) → Scan (List Char)
  | 0, word => return word
  | fuel + 1, word => do
    let c ← here
    if isGap c || (inFlow && isFlowMark c) then return word
    if c = ':' && isGap (← look 1) then return word
    pass
    demand 2
    plainWordFrom inFlow fuel (c :: word)

/--
Reads the words of a plain scalar onto `text`, which holds the characters before them, the last one
first. Outside of flow collections, a line that is indented less than `indent` ends the scalar. Tells
whether a line ended after it.
-/
def plainFrom (inFlow : Bool) (indent : Int) :
    (fuel : Nat) → (text : List Char) → Gap → Scan (List Char × Bool)
  | 0, text, g => return (text, g.broken)
  | fuel + 1, text, g => do
    demand 4
    if (← get).atDocumentMark || (← here) = '#' then return (text, g.broken)
    let word ← plainWordFrom inFlow (← get).limit []
    let (text, g) := if word.isEmpty then (text, g) else (word ++ (g.text ++ text), {})
    if !isBlank (← here) && !isBreak (← here) then return (text, g.broken)
    let g ← gap indent g
    if !inFlow && ((← column) : Int) < indent then return (text, g.broken)
    plainFrom inFlow indent fuel text g

/-- Reads a plain scalar; tells whether a line ended after it. -/
def plain (inFlow : Bool) (indent : Int) : Scan (String × Bool) := do
  let (text, broken) ← plainFrom inFlow indent (← get).limit [] {}
  return (String.ofList text.reverse, broken)

end Scan

end ScriptPir.Yaml

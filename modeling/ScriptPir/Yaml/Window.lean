import ScriptPir.Yaml.Blocks

/-!
# YAML: the window through which a text is read

Of a text only a window is known: the characters that were decoded so far and not passed yet. It is
moved on, by whole blocks, when a reader asks for more characters than are left in it; a defect of the
text comes up when its block is asked for. After the end of a text come as many end marks as are asked
for.

A byte order mark at the start of a window is taken to start a line. As long as that window is open, the
first character of every line is passed over in its place.
-/

namespace ScriptPir.Yaml

/-- A place in a text, counted from zero. -/
structure Mark where
  line : Nat := 0
  col : Nat := 0
  /-- How many characters stand before it. -/
  index : Nat := 0
deriving DecidableEq, Repr, Inhabited

/-- What is known of a text, and what is still to come. -/
structure Window where
  /-- The characters in the window that were not passed yet. -/
  ahead : List Char := []
  /-- The blocks after the window. -/
  later : List (List Char) := []
  /-- What is wrong with the text after these blocks, unless it ends there. -/
  defect : Option Problem := none
  /-- Whether the window starts with a byte order mark. -/
  marked : Bool := false
  /-- The place of the next character. -/
  mark : Mark := {}
  /-- No more characters than these are in the text. -/
  limit : Nat := 0
deriving DecidableEq, Repr, Inhabited

/-- Stands after the last character. No text has it inside. -/
def endMark : Char := '\x00'

/-- A byte order mark. -/
def orderMark : Char := '\uFEFF'

/-! ## Characters -/

/-- Whether a character is a space or a tab. -/
def isBlank (c : Char) : Bool := c = ' ' || c = '\t'

/-- Whether a character ends a line. -/
def isBreak (c : Char) : Bool :=
  c = '\n' || c = '\r' || c = '\x85' || c = '\u2028' || c = '\u2029'

/-- Whether a text ends with a character. -/
def isEnd (c : Char) : Bool := c = endMark

/-- Whether a word cannot go on with a character. -/
def isGap (c : Char) : Bool := isBlank c || isBreak c || isEnd c

/-- The line end that a character stands for: itself, or a line feed. -/
def lineEnd (c : Char) : Char := if c = '\u2028' || c = '\u2029' then c else '\n'

namespace Window

/-- The window at the start of a text. -/
def ofBytes (bytes : List UInt8) : Window :=
  let bs := blocks bytes
  { later := bs.chars, defect := bs.defect, limit := bytes.length + 1 }

/-- The next character but `i`. -/
def look (w : Window) (i : Nat) : Char := w.ahead.getD i endMark

/-- Adds blocks to the characters ahead until there are `n`, or one end mark at the end. -/
def refill (n : Nat) (defect : Option Problem) (ahead : List Char) :
    List (List Char) → Except Fault (List Char × List (List Char))
  | block :: later =>
    let ahead := ahead ++ block
    if n ≤ ahead.length then .ok (ahead, later) else refill n defect ahead later
  | [] =>
    match defect with
    | some p => .error ⟨p, 0⟩
    | none => .ok (ahead ++ [endMark], [])

/-- Moves the window on if there are less than `n` characters in it. -/
def demand (w : Window) (n : Nat) : Except Fault Window :=
  if (w.ahead.drop (n - 1)).isEmpty then do
    let (ahead, later) ← refill n w.defect w.ahead w.later
    return { w with ahead, later, marked := ahead.head? = some orderMark }
  else .ok w

/-- Passes a character. -/
def pass (w : Window) : Window :=
  { w with
    ahead := w.ahead.drop 1
    mark := { w.mark with col := w.mark.col + 1, index := w.mark.index + 1 } }

/-- Passes a line end, which can be two characters. -/
def passBreak (w : Window) : Window :=
  let width := match w.ahead with
    | '\r' :: '\n' :: _ => 2
    | _ => 1
  { w with
    ahead := w.ahead.drop width
    mark := ⟨w.mark.line + 1, 0, w.mark.index + width⟩ }

/-- Whether the next characters are three times `c` and a gap. -/
def startsMark (w : Window) (c : Char) : Bool :=
  w.look 0 = c && w.look 1 = c && w.look 2 = c && isGap (w.look 3)

/-- Whether a document starts or ends here, which it does at the start of a line. -/
def atDocumentMark (w : Window) : Bool :=
  w.mark.col = 0 && (w.startsMark '-' || w.startsMark '.')

end Window

/-! ## Scanning -/

/-- Reading through a window. -/
abbrev Scan := StateT Window (Except Fault)

namespace Scan

/-- Fails at the place that has been reached. -/
def fail {α : Type} (p : Problem) : Scan α := fun w => .error (Fault.inText p w.mark.line)

/-- Asks for `n` characters. -/
def demand (n : Nat) : Scan Unit := fun w => return ((), ← w.demand n)

/-- The next character but `i`. -/
def look (i : Nat) : Scan Char := return (← get).look i

/-- The next character. -/
def here : Scan Char := look 0

/-- The column that has been reached. -/
def column : Scan Nat := return (← get).mark.col

/-- Passes a character. -/
def pass : Scan Unit := modify Window.pass

/-- Passes a line end, and gives the character that it stands for. -/
def passBreak : Scan Char := do
  let c ← here
  modify Window.passBreak
  return lineEnd c

/-- Passes the characters for which `p` holds. -/
def passWhileFrom (p : Char → Bool) : (fuel : Nat) → Scan Unit
  | 0 => return
  | fuel + 1 => do
    if p (← here) then
      pass
      demand 1
      passWhileFrom p fuel

/-- Passes the characters for which `p` holds. -/
def passWhile (p : Char → Bool) : Scan Unit := do passWhileFrom p (← get).limit

/-- Passes blanks, comments and line ends; gives whether a key may start behind them. -/
def passSpaceFrom (inFlow : Bool) : (fuel : Nat) → (keyAllowed : Bool) → Scan Bool
  | 0, allowed => return allowed
  | fuel + 1, allowed => do
    demand 1
    if (← column) = 0 && (← get).marked then pass
    demand 1
    passWhile fun c => c = ' ' || (c = '\t' && (inFlow || !allowed))
    if (← here) = '#' then passWhile fun c => !isBreak c && !isEnd c
    if isBreak (← here) then
      demand 2
      let _ ← passBreak
      passSpaceFrom inFlow fuel (allowed || !inFlow)
    else return allowed

/--
Passes blanks, comments and line ends. Tabs are blanks only where no key may start. A line end outside
of flow collections allows a key.
-/
def passSpace (inFlow keyAllowed : Bool) : Scan Bool := do
  passSpaceFrom inFlow (← get).limit keyAllowed

end Scan

end ScriptPir.Yaml

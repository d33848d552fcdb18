import ScriptPir.Yaml.Scalar
import ScriptPir.Yaml.Token

/-!
# YAML: from text to tokens

What is a key is only known at the colon after it. So the place of every scalar or flow collection that
could be one is remembered, and the tokens that announce a key are put there afterwards. In the block
style, collections start and end with the indentation.

Tokens are read when they are asked for. A token that may turn out to be a key is given away only when
this is settled: until then the lexer reads on, and a fault that it meets there comes up first.
-/

namespace ScriptPir.Yaml

/-! ## Places of keys -/

/-- What is known of the place of a key. -/
inductive KeyStatus where
  /-- No key starts there. -/
  | closed
  /-- A key may start there, and the token there waits until this is settled. -/
  | waiting
  /-- A key may start there, but the token there is given away all the same. -/
  | released
deriving DecidableEq, Repr, Inhabited

/-- A place at which a key may have started. -/
structure KeyPlace where
  status : KeyStatus := .closed
  /-- Whether nothing but a key can stand there. -/
  required : Bool := false
  /-- How many tokens stand before it. -/
  position : Nat := 0
  mark : Mark := {}
deriving DecidableEq, Repr, Inhabited

/-- How far the characters of a key may reach. -/
def keyLimit : Nat := 1024

/-- Whether the key that started at a place can still end at a mark: on its line, and not too far away. -/
def KeyPlace.reaches (k : KeyPlace) (m : Mark) : Bool :=
  m.line ≤ k.mark.line && m.index ≤ k.mark.index + keyLimit

/-! ## Lexers -/

/-- What has been read, and what is open. -/
structure Lexer where
  window : Window
  /-- All tokens so far. -/
  tokens : Array Token := #[]
  /-- How many of them were given away. -/
  taken : Nat := 0
  /-- How many flow collections are open. -/
  flow : Nat := 0
  /-- The column of the innermost block collection. -/
  indent : Int := -1
  /-- The columns around it, inner ones first. -/
  indents : List Int := []
  /-- How many columns there are around it. -/
  depth : Nat := 0
  /-- Whether a key may start here. -/
  keyAllowed : Bool := true
  /-- Where a key may have started, in the innermost flow collection. -/
  key : KeyPlace := {}
  /-- The same for the collections around it, inner ones first. -/
  keys : List KeyPlace := []

/-- Reading tokens. -/
abbrev Lex := StateT Lexer (Except Fault)

namespace Lex

/-- Reads characters. -/
def scan {α : Type} (act : Scan α) : Lex α := fun l => do
  let (a, window) ← act l.window
  return (a, { l with window })

/-- Fails at the place that has been reached. -/
def fail {α : Type} (p : Problem) : Lex α := scan (Scan.fail p)

/-- The place that has been reached. -/
def mark : Lex Mark := return (← get).window.mark

/-- Whether a flow collection is open. -/
def inFlow : Lex Bool := return 0 < (← get).flow

/-- Says whether a key may start here. -/
def allowKey (keyAllowed : Bool) : Lex Unit := modify ({ · with keyAllowed })

/-- Adds a token. -/
def emit (kind : TokenKind) (line : Nat) : Lex Unit :=
  modify fun l => { l with tokens := l.tokens.push ⟨kind, line⟩ }

/-- Puts a token at a position. If it has been given away what stands there, the token comes last. -/
def insert (position : Nat) (kind : TokenKind) (line : Nat) : Lex Unit :=
  modify fun l =>
    if l.taken ≤ position then
      { l with tokens := l.tokens.insertIdxIfInBounds position ⟨kind, line⟩ }
    else { l with tokens := l.tokens.push ⟨kind, line⟩ }

/-- Adds a token for the next characters, and passes them. -/
def take (kind : TokenKind) (width : Nat) : Lex Unit := do
  emit kind (← mark).line
  scan ((List.range width).forM fun _ => Scan.pass)

/-! ## Indentation -/

/-- Ends the block collections that are indented more than a column. -/
def unrollFrom (column : Int) (line : Nat) : (indents : List Int) → Lex Unit
  | [] => return
  | outer :: indents => do
    if column < (← get).indent then
      emit .blockEnd line
      modify fun l => { l with indent := outer, indents, depth := l.depth - 1 }
      unrollFrom column line indents

/-- Ends the block collections that are indented more than a column. In flow nothing ends so. -/
def unroll (column : Int) : Lex Unit := do
  if !(← inFlow) then unrollFrom column (← mark).line (← get).indents

/-- Starts a block collection at a column, if it is indented more than the one around it. -/
def roll (column : Int) (position : Nat) (kind : TokenKind) (line : Nat) : Lex Unit := do
  if !(← inFlow) && (← get).indent < column then
    modify fun l => { l with
      indent := column, indents := l.indent :: l.indents, depth := l.depth + 1 }
    if depthLimit < (← get).depth then fail .tooDeep
    insert position kind line

/-- Starts a block collection here. -/
def rollHere (kind : TokenKind) : Lex Unit := do
  let m ← mark
  roll m.col (← get).tokens.size kind m.line

/-! ## Keys -/

/-- Gives up the place of a key. -/
def dropKey : Lex Unit := do
  let k := (← get).key
  if k.status ≠ .closed then
    if k.required then fail .colonExpected
    modify fun l => { l with key := { l.key with status := .closed } }

/-- Remembers that a key may start here. -/
def saveKey : Lex Unit := do
  if (← get).keyAllowed then
    dropKey
    modify fun l => { l with
      key := ⟨.waiting, l.flow = 0 && l.indent = (l.window.mark.col : Int), l.tokens.size,
        l.window.mark⟩ }

/-- Whether the key that started at a place can still end here. If not, it must not be required. -/
def isOpen (k : KeyPlace) : Lex Bool := do
  if k.status = .closed then return false
  if k.reaches (← mark) then return true
  if k.required then fail .colonExpected
  return false

/-- Opens a flow collection. -/
def openLevel : Lex Unit := do
  modify fun l => { l with
    flow := l.flow + 1
    keys := l.key :: l.keys
    key := { position := l.tokens.size, mark := l.window.mark } }
  if depthLimit < (← get).flow then fail .tooDeep

/--
Closes a flow collection. If no key was remembered inside of it, it is itself no longer waited for,
although it may be a key.
-/
def closeLevel : Lex Unit :=
  modify fun l =>
    match l.keys with
    | [] => l
    | k :: keys =>
      let status :=
        if k.status = .waiting && k.position = l.key.position then .released else k.status
      { l with flow := l.flow - 1, key := { k with status }, keys }

/-! ## Tokens -/

/-- A colon: the key before it is announced, and the block mapping that it starts. -/
def readValue : Lex Unit := do
  let k := (← get).key
  if ← isOpen k then
    insert k.position .key k.mark.line
    roll k.mark.col k.position .blockMapping k.mark.line
    modify fun l => { l with key := { l.key with status := .closed } }
    allowKey false
  else
    if !(← inFlow) then
      if !(← get).keyAllowed then fail .valueHere
      rollHere .blockMapping
    modify fun l => { l with key := { l.key with status := .closed } }
    allowKey (!(← inFlow))
  take .value 1

/-- A question mark before a key. -/
def readKey : Lex Unit := do
  if !(← inFlow) then
    if !(← get).keyAllowed then fail .keyHere
    rollHere .blockMapping
  dropKey
  allowKey (!(← inFlow))
  take .key 1

/-- A dash before an item. -/
def readEntry : Lex Unit := do
  if !(← inFlow) then
    if !(← get).keyAllowed then fail .entryHere
    rollHere .blockSequence
  dropKey
  allowKey true
  take .entry 1

/-- A comma between items. -/
def readComma : Lex Unit := do
  dropKey
  allowKey true
  take .comma 1

/-- An opening bracket. -/
def openFlow (kind : TokenKind) : Lex Unit := do
  saveKey
  openLevel
  allowKey true
  take kind 1

/-- A closing bracket. -/
def closeFlow (kind : TokenKind) : Lex Unit := do
  dropKey
  closeLevel
  allowKey false
  take kind 1

/-- A scalar between quotes. -/
def readQuoted (quote : Char) : Lex Unit := do
  saveKey
  allowKey false
  let line := (← mark).line
  let text ← scan (Scan.quoted quote)
  emit (.scalar false text) line

/-- A plain scalar. -/
def readPlain : Lex Unit := do
  saveKey
  let line := (← mark).line
  let (text, broken) ← scan (Scan.plain (← inFlow) ((← get).indent + 1))
  allowKey broken
  emit (.scalar true text) line

/-- A mark at the start of a line, which ends all block collections. -/
def readMark (kind : TokenKind) : Lex Unit := do
  unroll (-1)
  dropKey
  allowKey false
  take kind 3

/-- The end of the text, which is taken for the start of a line. -/
def readEnd : Lex Unit := do
  let m ← mark
  if m.col ≠ 0 then
    scan (modify ({ · with mark := { m with line := m.line + 1, col := 0 } }))
  unroll (-1)
  dropKey
  allowKey false
  take .streamEnd 0

/-- Whether a plain scalar can start with a character, with another one behind it. -/
def startsPlain (inFlow : Bool) (c next : Char) : Bool :=
  let marks := ['-', '?', ':', ',', '[', ']', '{', '}', '#', '&', '*', '!', '|', '>', '\'', '"',
    '%', '@', '\x60']
  (!isGap c && !marks.contains c) || (c = '-' && !isBlank next) ||
    (!inFlow && (c = '?' || c = ':') && !isGap next)

/-- Reads the next token. -/
def readNext : Lex Unit := do
  scan (Scan.demand 1)
  let flowing ← inFlow
  allowKey (← scan (Scan.passSpace flowing (← get).keyAllowed))
  unroll (← mark).col
  scan (Scan.demand 4)
  let w := (← get).window
  let gap := isGap (w.look 1)
  if isEnd (w.look 0) then readEnd
  else if w.atDocumentMark then
    readMark (if w.look 0 = '-' then .documentStart else .documentEnd)
  else match w.look 0 with
  | '[' => openFlow .flowSequence
  | '{' => openFlow .flowMapping
  | ']' => closeFlow .flowSequenceEnd
  | '}' => closeFlow .flowMappingEnd
  | ',' => readComma
  | '\'' => readQuoted '\''
  | '"' => readQuoted '"'
  | c =>
    if c = '-' && gap then readEntry
    else if c = '?' && (flowing || gap) then readKey
    else if c = ':' && (flowing || gap) then readValue
    else if startsPlain flowing c (w.look 1) then readPlain
    else fail .noToken

/-! ## Giving tokens away -/

/-- Whether the token at a position waits for the key that may start at a place. -/
def holds (position : Nat) (k : KeyPlace) : Bool := k.status = .waiting && k.position = position

/-- The place for which a token waits. Inner places come first, and those around them start earlier. -/
def placeAt? (position : Nat) : List KeyPlace → Option KeyPlace
  | [] => none
  | k :: keys =>
    if holds position k then some k
    else if k.position < position then none
    else placeAt? position keys

/-- Closes the place for which a token waits. -/
def closeAt (position : Nat) : List KeyPlace → List KeyPlace
  | [] => []
  | k :: keys =>
    if holds position k then { k with status := .closed } :: keys else k :: closeAt position keys

/-- Whether the next token has to wait until it is known whether it is a key. -/
def mustWait : Lex Bool := do
  let l ← get
  match placeAt? l.taken (l.key :: l.keys) with
  | none => return false
  | some k =>
    if ← isOpen k then return true
    if let key :: keys := closeAt l.taken (l.key :: l.keys) then modify ({ · with key, keys })
    return false

/-- Reads tokens until the next one can be given away. -/
def readAheadFrom : (fuel : Nat) → Lex Unit
  | 0 => return
  | fuel + 1 => do
    let l ← get
    let more ← if l.taken < l.tokens.size then mustWait else pure true
    if more then
      readNext
      readAheadFrom fuel

/-- The next token. -/
def peek : Lex Token := do
  readAheadFrom ((← get).window.limit + 2)
  let l ← get
  return l.tokens.getD l.taken default

/-- Takes the next token. -/
def advance : Lex Unit := modify fun l => { l with taken := l.taken + 1 }

end Lex

end ScriptPir.Yaml

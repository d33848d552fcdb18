import ScriptPir.Yaml.Lexer

/-!
# YAML: from tokens to events

The structure of a document as a sequence of events: scalars, and starts and ends of collections. What
can come next is kept on a stack, with the innermost collection on top.
-/

namespace ScriptPir.Yaml

/-- A step through a document. Lines are counted from one. -/
inductive Event where
  | scalar (line : Nat) (plain : Bool) (text : String)
  | sequenceStart (line : Nat)
  | sequenceEnd
  | mappingStart (line : Nat)
  | mappingEnd
deriving DecidableEq, Repr

/-- A place in the structure of a document, where something is to be read. -/
inductive Place where
  /-- The content of a document that starts without a mark. -/
  | bareDocument
  /-- The content of a document after its mark. -/
  | document
  /-- An item of a block sequence, or its end. -/
  | blockItem
  /-- An item of a sequence that is not indented, or its end. -/
  | item
  | blockKey
  | blockValue
  /-- An item of a flow sequence, or its end. -/
  | flowItem (first : Bool)
  /-- The key of a single pair in a flow sequence. -/
  | pairKey
  | pairValue
  | pairEnd
  | flowKey (first : Bool)
  | flowValue
  /-- The value of a key that has none. -/
  | noValue
deriving DecidableEq, Repr

namespace Event

/-- What stands where nothing is written. -/
def nothing (line : Nat) : Event := .scalar (line + 1) true ""

/-- Fails at a token. The message counts lines from zero. -/
def unexpected {α : Type} (p : Problem) (t : Token) : Lex α := throw ⟨p, t.line⟩

/--
Reads a node, after which `places` follow. Block collections may start where `block` says so, and a
sequence that is not indented where `indentless` does.
-/
def node (block indentless : Bool) (places : List Place) : Lex (Event × List Place) := do
  let t ← Lex.peek
  let line := t.line + 1
  match t.kind with
  | .scalar plain text =>
    Lex.advance
    return (.scalar line plain text, places)
  | .flowSequence =>
    Lex.advance
    return (.sequenceStart line, .flowItem true :: places)
  | .flowMapping =>
    Lex.advance
    return (.mappingStart line, .flowKey true :: places)
  | .entry =>
    if indentless then return (.sequenceStart line, .item :: places) else unexpected .content t
  | .blockSequence =>
    if block then
      Lex.advance
      return (.sequenceStart line, .blockItem :: places)
    else unexpected .content t
  | .blockMapping =>
    if block then
      Lex.advance
      return (.mappingStart line, .blockKey :: places)
    else unexpected .content t
  | _ => unexpected .content t

/-- Whether nothing is written before the end of a document. -/
def endsDocument : TokenKind → Bool
  | .documentStart | .documentEnd | .streamEnd => true
  | _ => false

/-- Whether nothing is written before the next part of a block mapping. -/
def endsBlockPart : TokenKind → Bool
  | .key | .value | .blockEnd => true
  | _ => false

/-- Whether nothing is written before the next part of a flow mapping. -/
def endsFlowPart : TokenKind → Bool
  | .value | .comma | .flowMappingEnd => true
  | _ => false

/-- Whether nothing is written before the next part of a pair in a flow sequence. -/
def endsPairPart : TokenKind → Bool
  | .value | .comma | .flowSequenceEnd => true
  | _ => false

/-- Takes a token that ends a collection. -/
def close (event : Event) (places : List Place) : Lex (Event × List Place) := do
  Lex.advance
  return (event, places)

/-- The token with which an item starts in a flow collection; a comma has to stand before all but the first. -/
def itemToken (first : Bool) (stop : TokenKind) (p : Problem) : Lex Token := do
  let t ← Lex.peek
  if first || t.kind = stop then return t
  if t.kind ≠ .comma then unexpected p t
  Lex.advance
  Lex.peek

/-- Reads what comes next at a place; `places` are those around it. -/
def nextAt (place : Place) (places : List Place) : Lex (Event × List Place) := do
  let t ← Lex.peek
  match place with
  | .bareDocument => node true false places
  | .document => if endsDocument t.kind then return (nothing t.line, places) else node true false places
  | .blockItem =>
    match t.kind with
    | .blockEnd => close .sequenceEnd places
    | .entry =>
      Lex.advance
      let u ← Lex.peek
      if u.kind = .entry || u.kind = .blockEnd then return (nothing t.line, .blockItem :: places)
      node true false (.blockItem :: places)
    | _ => unexpected .dash t
  | .item =>
    if t.kind ≠ .entry then return (.sequenceEnd, places)
    Lex.advance
    let u ← Lex.peek
    if u.kind = .entry || endsBlockPart u.kind then return (nothing t.line, .item :: places)
    node true false (.item :: places)
  | .blockKey =>
    match t.kind with
    | .blockEnd => close .mappingEnd places
    | .key =>
      Lex.advance
      if endsBlockPart (← Lex.peek).kind then return (nothing t.line, .blockValue :: places)
      node true true (.blockValue :: places)
    | _ => unexpected .blockKey t
  | .blockValue =>
    if t.kind ≠ .value then return (nothing t.line, .blockKey :: places)
    Lex.advance
    if endsBlockPart (← Lex.peek).kind then return (nothing t.line, .blockKey :: places)
    node true true (.blockKey :: places)
  | .flowItem first =>
    let t ← itemToken first .flowSequenceEnd .sequenceEnd
    match t.kind with
    | .flowSequenceEnd => close .sequenceEnd places
    | .key =>
      Lex.advance
      return (.mappingStart (t.line + 1), .pairKey :: places)
    | _ => node false false (.flowItem false :: places)
  | .pairKey =>
    -- The token before which nothing is written is passed, whatever it is.
    if endsPairPart t.kind then
      Lex.advance
      return (nothing t.line, .pairValue :: places)
    node false false (.pairValue :: places)
  | .pairValue =>
    if t.kind ≠ .value then return (nothing t.line, .pairEnd :: places)
    Lex.advance
    let u ← Lex.peek
    if u.kind = .comma || u.kind = .flowSequenceEnd then return (nothing t.line, .pairEnd :: places)
    node false false (.pairEnd :: places)
  | .pairEnd => return (.mappingEnd, .flowItem false :: places)
  | .flowKey first =>
    let t ← itemToken first .flowMappingEnd .mappingEnd
    match t.kind with
    | .flowMappingEnd => close .mappingEnd places
    | .key =>
      Lex.advance
      let u ← Lex.peek
      if endsFlowPart u.kind then return (nothing u.line, .flowValue :: places)
      node false false (.flowValue :: places)
    | _ => node false false (.noValue :: places)
  | .flowValue =>
    if t.kind ≠ .value then return (nothing t.line, .flowKey false :: places)
    Lex.advance
    let u ← Lex.peek
    if u.kind = .comma || u.kind = .flowMappingEnd then
      return (nothing u.line, .flowKey false :: places)
    node false false (.flowKey false :: places)
  | .noValue => return (nothing t.line, .flowKey false :: places)

end Event

end ScriptPir.Yaml

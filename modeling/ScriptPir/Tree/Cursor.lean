import ScriptPir.Tree.Node
import ScriptPir.Tree.SyntaxError

/-!
# Reading a token list

A parser takes tokens off the front of a list and numbers the nodes it makes. Behind the last token
there is either the end of input, as often as it is asked for, or the fault at which the source
could not be read on, which ends the parse as soon as it is looked at.
-/

namespace ScriptPir

/-- Where a parse stands. -/
structure Cursor where
  /-- The tokens not yet taken. -/
  rest : List Token
  /-- What follows the last token. -/
  ending : Except SyntaxError Token
  /-- The id of the next node. -/
  nextId : Nat := 0

/-- A step of a parse. -/
abbrev Parser := StateT Cursor (Except SyntaxError)

namespace Parser

/-- Ends the parse because of a token. -/
def fail {α : Type} (t : Token) (fault : SyntaxFault) : Parser α := throw ⟨t, fault⟩

/-- The token `i` places ahead. -/
def peek (i : Nat := 0) : Parser Token := do
  let c ← get
  match c.rest[i]? with
  | some t => pure t
  | none => liftExcept c.ending
where
  /-- The end of input, or the fault that stands in its place. -/
  liftExcept : Except SyntaxError Token → Parser Token
    | .ok t => pure t
    | .error e => throw e

/-- Takes the next token. -/
def next : Parser Token := do
  let t ← peek
  modify fun c => { c with rest := c.rest.tail }
  return t

/-- Leaves out the next token. -/
def skip : Parser Unit := do
  let _ ← next

/-- Leaves out line feeds, but not semicolons. -/
def skipNewlines : Parser Unit :=
  modify fun c => { c with rest := c.rest.dropWhile Token.isNewline }

/-- Takes the id for a new node. -/
def fresh : Parser Int := do
  let c ← get
  set { c with nextId := c.nextId + 1 }
  return c.nextId

/-- Makes a node from children that are already there. -/
def node (kind : Kind) (t : Token) (children : List Node) : Parser Node :=
  return .mk (← fresh) kind t children

/-- Makes a node for a token. -/
def term (t : Token) : Parser Node := node .terminal t []

/-- Takes a token that must be the given keyword. -/
def expectKeyword (word : String) : Parser Token := do
  let t ← next
  if t.isKeyword word then return t else fail t (.expected word)

/-- Takes a token that must be of the given kind and text. -/
def expect (kind : TokenKind) (text : String) : Parser Token := do
  let t ← next
  if t.kind = kind ∧ t.text = text then return t else fail t (.expected text)

/-- Takes a token that must be a name. -/
def expectName (what : String) : Parser Token := do
  let t ← next
  if t.isName then return t else fail t (.nameExpected what)

end Parser

/-- Whether a token ends a statement. -/
def Token.endsStmt (t : Token) : Bool :=
  t.kind = .semi || t.kind = .eof ||
    (t.kind = .ident && (t.text = "end" || t.text = "else" || t.text = "elsif"))

/-- The tokens that mean something, in order. -/
def Lexed.tokens (l : Lexed) : List Token :=
  l.lexemes.filterMap fun | .token t => some t | .comment .. => none

/-- The token for the end of input, which stands right behind the last token. -/
def endToken (tokens : List Token) : Token :=
  let last := tokens.getLast?.getD {}
  { kind := .eof, line := last.line, col := last.col + last.text.utf8ByteSize }

/-- What follows the last token. -/
def Lexed.ending (l : Lexed) : Except SyntaxError Token :=
  match l.bad with
  | none => .ok (endToken l.tokens)
  | some b => .error ⟨⟨.bad, Glyph.text b.body, b.pos.line, b.pos.col⟩, .lexical b.fault⟩

/-- The start of a parse. -/
def Cursor.start (l : Lexed) : Cursor := { rest := l.tokens, ending := l.ending }

end ScriptPir

/-!
# Tokens

A token is a lexical element with its text and its place in the source. The end of input is a
token too, which only the reader of a token list makes.
-/

namespace ScriptPir

/-- The lexical class of a token. -/
inductive TokenKind where
  /-- Text that is no token of the language. -/
  | bad
  /-- A semicolon or a line feed. -/
  | semi
  /-- An identifier or a keyword. -/
  | ident
  /-- A dollar sign and a name. -/
  | global
  /-- An integer, decimal or hexadecimal. -/
  | int
  /-- A number with a fraction or an exponent. -/
  | float
  /-- A string with its quotes. -/
  | string
  /-- An operator. -/
  | op
  /-- An opening bracket, round or square. -/
  | opening
  /-- A closing bracket, round or square. -/
  | closing
  | comma
  /-- The inside of a block of target code. -/
  | pir
  | comment
  /-- The end of input. -/
  | eof
deriving DecidableEq, Repr, Inhabited

namespace TokenKind

/-- All kinds, in the order of their codes. -/
def all : List TokenKind :=
  [bad, semi, ident, global, int, float, string, op, opening, closing, comma, pir, comment, eof]

/-- The kind with a given code. -/
def ofCode? (code : Int) : Option TokenKind :=
  if code < 0 then none else all[code.toNat]?

/-- The name of a kind in messages. -/
def name : TokenKind → String
  | bad => "BadToken"
  | semi => "SemiToken"
  | ident => "IdentToken"
  | global => "GlobalToken"
  | int => "IntToken"
  | float => "FloatToken"
  | string => "StringToken"
  | op => "OpToken"
  | opening => "OpenToken"
  | closing => "CloseToken"
  | comma => "CommaToken"
  | pir => "PIRToken"
  | comment => "CommentToken"
  | eof => "EOFToken"

/-- The kind of a given name. -/
def ofName? (name : String) : Option TokenKind := all.find? (·.name = name)

end TokenKind

/-- A lexical element of a source. Lines and columns count from one; columns count bytes. -/
structure Token where
  kind : TokenKind := .bad
  text : String := ""
  line : Int := 0
  col : Int := 0
deriving DecidableEq, Repr, Inhabited

namespace Token

/-- Whether a token is the given keyword. -/
def isKeyword (t : Token) (word : String) : Bool := t.kind = .ident && t.text = word

/-- Whether a token is the given operator. -/
def isOp (t : Token) (op : String) : Bool := t.kind = .op && t.text = op

/-- Whether a token is a line feed, as opposed to a semicolon. -/
def isNewline (t : Token) : Bool := t.kind = .semi && t.text = "\n"

/-- Whether a token is the given opening bracket. -/
def isOpening (t : Token) (bracket : String) : Bool := t.kind = .opening && t.text = bracket

/-- Identifiers that cannot name variables or functions. -/
def keywords : List String :=
  ["and", "break", "def", "do", "else", "elsif", "end", "false", "for", "if", "not", "or",
    "require", "return", "then", "true", "unless", "while"]

/-- Whether a token names a variable or a function. -/
def isName (t : Token) : Bool := t.kind = .ident && t.text ∉ keywords

end Token

end ScriptPir

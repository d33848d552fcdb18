import ScriptPir.Numeral.Decimal
import ScriptPir.Token.Lexer
import ScriptPir.Value.Literal

/-!
# Syntax errors

A source that is no program has one error: a token, and what was wrong with it. An error whose
token is the end of input, or that comes from text that was never closed, may go away with more
input; it is *incomplete*.
-/

namespace ScriptPir

/-- A token as it is named in messages. -/
def Token.describe (t : Token) : String :=
  if t.kind = .eof then "end of input"
  else if t.isNewline then "newline"
  else Text.quote t.text

/-- What is wrong with a token. -/
inductive SyntaxFault where
  /-- The text there is no token. -/
  | lexical (fault : LexFault)
  /-- Another word, bracket or separator must stand there. -/
  | expected (text : String)
  /-- A name must stand there. -/
  | nameExpected (what : String)
  | statementStart
  | statementEnd
  /-- An assignment to a global must go on with an equals sign. -/
  | globalAssign (name : String)
  /-- An assignment to an element must go on with an equals sign. -/
  | elementAssign (target : String)
  | assignExpected
  | breakOutsideLoop
  | requireName
  | arrayNotEmpty
  | nestedFunction
  | conditionEnd
  | forHeader
  | expression
  | badLiteral (error : LiteralError)
  /-- An array index has a constant in it that is no integer. -/
  | indexLiteral (what : String)
  /-- The bound on the depth of a program was reached. -/
  | tooDeep
deriving DecidableEq, Repr

/-- A syntax error: the offending token, and what is wrong with it. -/
structure SyntaxError where
  token : Token
  fault : SyntaxFault
deriving DecidableEq, Repr

namespace SyntaxError

/-- What is wrong, without the note that input ended. -/
def reason (e : SyntaxError) : String :=
  let found := e.token.describe
  match e.fault with
  | .lexical fault => fault.message
  | .expected text => "expected " ++ Text.quote text ++ ", found " ++ found
  | .nameExpected what => "expected " ++ what ++ ", found " ++ found
  | .statementStart => "unexpected " ++ found ++ " at start of statement"
  | .statementEnd => "expected newline or ; after statement, found " ++ found
  | .globalAssign name => "expected = after global " ++ name ++ ", found " ++ found
  | .elementAssign target => "expected = after " ++ target ++ ", found " ++ found
  | .assignExpected => "expected assignment operator, found " ++ found
  | .breakOutsideLoop => "break outside of a loop"
  | .requireName => "expected string after require, found " ++ found
  | .arrayNotEmpty => "array literals must be empty"
  | .nestedFunction => "def must be at top level"
  | .conditionEnd => "expected newline after condition, found " ++ found
  | .forHeader => "expected assignment in for header, found " ++ found
  | .expression => "unexpected " ++ found ++ " in expression"
  | .badLiteral error => error.message
  | .indexLiteral what => "array index cannot contain a " ++ what ++ " literal"
  | .tooDeep => "program nested too deeply"

/-- What is wrong. -/
def cause (e : SyntaxError) : String :=
  if e.token.kind = .eof then e.reason ++ ": " ++ unexpectedEnd else e.reason

/-- Whether the error says that input ended too early. -/
def incomplete (e : SyntaxError) : Bool :=
  e.token.kind = .eof || e.fault = .lexical .unterminated

/-- The whole message, for a source of a given name. -/
def message (e : SyntaxError) (label : String) : String :=
  label ++ ":" ++ Numeral.ofInt e.token.line ++ ":" ++ Numeral.ofInt e.token.col ++ ": " ++ e.cause

end SyntaxError

end ScriptPir

import ScriptPir.Numeral.FloatText
import ScriptPir.Token
import ScriptPir.Value

/-!
# Literals

The value that a literal token stands for, or why it stands for none.
-/

namespace ScriptPir

/-- Why a token is not a literal. -/
inductive LiteralError where
  /-- An integer token; `digits` is the part of its text that was read as a number. -/
  | integer (text digits : String) (fault : Numeral.Fault)
  | float (text digits : String) (fault : Numeral.Fault)
  /-- A string token without a quote at both ends. -/
  | string (text : String)
  /-- A token of a kind that has no value. -/
  | notLiteral (kind : TokenKind) (text : String)
deriving DecidableEq, Repr

/-- The text of an error. -/
def LiteralError.message : LiteralError → String
  | integer text digits fault =>
    "invalid integer literal " ++ text ++ ": strconv.ParseInt: parsing " ++ Text.quote digits ++
      ": " ++ fault.message
  | float text digits fault =>
    "invalid float literal " ++ text ++ ": strconv.ParseFloat: parsing " ++ Text.quote digits ++
      ": " ++ fault.message
  | string text => "malformed string literal " ++ text
  | notLiteral kind text => kind.name ++ " " ++ Text.quote text ++ " is not a literal"

namespace Literal

/-- The value of an integer's text; underscores between digits have no meaning. -/
def int (text : String) : Except LiteralError Value :=
  let digits := text.toList.filter (· ≠ '_')
  let (base, digits) := match digits with
    | '0' :: 'x' :: hex | '0' :: 'X' :: hex => (16, hex)
    | digits => (10, digits)
  match Numeral.readInt base digits with
  | .ok n => .ok (.int n)
  | .error fault => .error (.integer text (String.ofList digits) fault)

/-- The value of a float's text; underscores between digits have no meaning. -/
def float (text : String) : Except LiteralError Value :=
  let digits := text.toList.filter (· ≠ '_')
  match Numeral.readFloat digits with
  | .ok x => .ok (.float x)
  | .error fault => .error (.float text (String.ofList digits) fault)

/-- The inside of a single-quoted string with its escaped quotes as plain ones. -/
def plainQuotes : List Char → List Char
  | '\\' :: '\'' :: s => '\'' :: plainQuotes s
  | c :: s => c :: plainQuotes s
  | [] => []

/-- The inside of a string with its double quotes escaped. -/
def escapeQuotes (s : List Char) : List Char :=
  s.flatMap fun c => if c = '"' then ['\\', '"'] else [c]

/-- The value of a string's text, without its quotes and ready for double quotes. -/
def string (text : String) : Except LiteralError Value :=
  match text.toList with
  | first :: rest =>
    if rest.getLast? = some first ∧ first.toNat < 0x80 then
      let inside := rest.dropLast
      let inside := if first = '\'' then escapeQuotes (plainQuotes inside) else inside
      .ok (.str (String.ofList inside))
    else .error (.string text)
  | [] => .error (.string text)

end Literal

/-- The value that a token stands for. -/
def literal (t : Token) : Except LiteralError Value :=
  match t.kind with
  | .int => Literal.int t.text
  | .float => Literal.float t.text
  | .string => Literal.string t.text
  | .ident =>
    if t.text = "true" then .ok (.int 1)
    else if t.text = "false" then .ok (.int 0)
    else .error (.notLiteral t.kind t.text)
  | _ => .error (.notLiteral t.kind t.text)

end ScriptPir

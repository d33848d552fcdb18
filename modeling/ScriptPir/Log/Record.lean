import ScriptPir.Log.Level
import ScriptPir.Log.Notice
import ScriptPir.Numeral.Decimal
import ScriptPir.Text.Blank

/-!
# Log records

A record is a level, a message and attributes in order. As text it is a line of `key=value` pairs, in
which a key or a value that could be misread stands between quotes; as JSON it is one object.
-/

namespace ScriptPir.Log

/-- The value of an attribute. -/
inductive Datum where
  | text (s : String)
  | number (n : Int)
  | flag (b : Bool)
  /-- No value. -/
  | absent
deriving DecidableEq, Repr

/-- A named value. -/
structure Attr where
  key : String
  value : Datum
deriving DecidableEq, Repr

/-- One entry of a log. -/
structure Record where
  level : Level
  message : String
  attrs : List Attr := []
  /-- When the record was made, as the format writes it, if that is known. -/
  time : Option String := none
deriving DecidableEq, Repr

/-- The key of a value that was given without one. -/
def strayKey : String := "!BADKEY"

/--
Reads attributes off a list in which keys and values take turns. A value in the place of a key, and a
key at the end without a value, become attributes of their own.
-/
def Attr.ofArgs : List Datum → List Attr
  | [] => []
  | [.text s] => [⟨strayKey, .text s⟩]
  | .text key :: value :: rest => ⟨key, value⟩ :: ofArgs rest
  | value :: rest => ⟨strayKey, value⟩ :: ofArgs rest

/-- Whether an attribute is written at all: one without both key and value is not. -/
def Attr.isShown (a : Attr) : Bool := !(a.key = "" && a.value = .absent)

/-! ## Records as text -/

/-- Whether a character forces the quotes around a text. -/
def forcesQuotes (c : Char) : Bool :=
  if c.toNat < 0x80 then c.toNat ≤ 0x20 || c = '=' || c = '"'
  else c = '\uFFFD' || Text.isBlank c || !Text.isPrintable c

/-- A key or a text value, between quotes if it could be misread without. -/
def plainText (s : String) : String :=
  if s = "" || s.toList.any forcesQuotes then Text.quote s else s

/-- A value as text. -/
def Datum.toText : Datum → String
  | text s => plainText s
  | number n => Numeral.ofInt n
  | flag b => if b then "true" else "false"
  | absent => "<nil>"

/-- A record as a line of text. -/
def Record.toText (r : Record) : String :=
  " ".intercalate <|
    (r.time.toList.map ("time=" ++ ·)) ++
    ["level=" ++ r.level.name, "msg=" ++ plainText r.message] ++
    (r.attrs.filter Attr.isShown).map fun a => plainText a.key ++ "=" ++ a.value.toText

/-! ## Records as JSON -/

/-- One character of a JSON string. -/
def jsonChar (c : Char) : List Char :=
  match c with
  | '"' => ['\\', '"']
  | '\\' => ['\\', '\\']
  | '\n' => ['\\', 'n']
  | '\r' => ['\\', 'r']
  | '\t' => ['\\', 't']
  | _ =>
    if c.toNat < 0x20 || c.toNat = 0x2028 || c.toNat = 0x2029 then
      '\\' :: 'u' :: Text.hexDigits 4 c.toNat
    else [c]

/-- A JSON string. -/
def jsonText (s : String) : String :=
  String.ofList ('"' :: s.toList.flatMap jsonChar ++ ['"'])

/-- A value in JSON. -/
def Datum.toJson : Datum → String
  | text s => jsonText s
  | number n => Numeral.ofInt n
  | flag b => if b then "true" else "false"
  | absent => "null"

/-- A record as a JSON object. -/
def Record.toJson (r : Record) : String :=
  let pair := fun (key value : String) => jsonText key ++ ":" ++ value
  let pairs :=
    (r.time.toList.map fun t => pair "time" (jsonText t)) ++
    [pair "level" (jsonText r.level.name), pair "msg" (jsonText r.message)] ++
    (r.attrs.filter Attr.isShown).map fun a => pair a.key a.value.toJson
  "\x7b" ++ ",".intercalate pairs ++ "\x7d"

/-- A record in a format, without the end of its line. -/
def Record.render (r : Record) : Format → String
  | .text => r.toText
  | .json => r.toJson

/-! ## Records of what the compiler does -/

/-- The record of an event. -/
def ofNotice : Notice → Record
  | .phaseStarted phase source =>
    ⟨.debug, "starting phase", [⟨"phase", .text phase⟩, ⟨"source", .text source⟩], none⟩
  | .phaseCompleted phase source =>
    ⟨.debug, "completed phase", [⟨"phase", .text phase⟩, ⟨"source", .text source⟩], none⟩
  | .semanticError line message =>
    ⟨.debug, "semantic error", [⟨"line", .number line⟩, ⟨"message", .text message⟩], none⟩
  | .functionStored name line replaced =>
    ⟨.debug, "function stored",
      [⟨"function", .text name⟩, ⟨"line", .number line⟩, ⟨"replaced", .flag replaced⟩], none⟩
  | .callSkipped name => ⟨.debug, "skipping undefined callee", [⟨"function", .text name⟩], none⟩
  | .outputWritten path bytes =>
    ⟨.info, "wrote output", [⟨"path", .text path⟩, ⟨"bytes", .number bytes⟩], none⟩

end ScriptPir.Log

import ScriptPir.Numeral.FloatText
import ScriptPir.Stamp.Moment
import ScriptPir.Yaml.Node

/-!
# YAML: what a plain scalar stands for

A plain scalar is nothing, a truth value, a number or a date if it looks like one, and a text
otherwise. A quoted scalar is always a text.
-/

namespace ScriptPir.Yaml

/-- What a scalar stands for. The values of numbers and dates are not needed. -/
inductive Meaning where
  | null
  | bool (b : Bool)
  | int
  | float
  | timestamp
  | str
deriving DecidableEq, Repr

/-- The name of a type, as it is written in messages. -/
def Meaning.tag : Meaning → String
  | null => "!!null"
  | bool _ => "!!bool"
  | int => "!!int"
  | float => "!!float"
  | timestamp => "!!timestamp"
  | str => "!!str"

/-- The meaning of the words that have one of their own. -/
def word? : String → Option Meaning
  | "" | "~" | "null" | "Null" | "NULL" => some .null
  | "y" | "Y" | "yes" | "Yes" | "YES" => some (.bool true)
  | "true" | "True" | "TRUE" => some (.bool true)
  | "on" | "On" | "ON" => some (.bool true)
  | "n" | "N" | "no" | "No" | "NO" => some (.bool false)
  | "false" | "False" | "FALSE" => some (.bool false)
  | "off" | "Off" | "OFF" => some (.bool false)
  | ".nan" | ".NaN" | ".NAN" => some .float
  | ".inf" | ".Inf" | ".INF" => some .float
  | "+.inf" | "+.Inf" | "+.INF" => some .float
  | "-.inf" | "-.Inf" | "-.INF" => some .float
  | _ => none

/-! ## Numbers -/

/-- Whether a text without sign is a whole number, in the base that its start names. -/
def magnitude? (s : List Char) : Option Nat :=
  let read := fun base cs => (Numeral.readMagnitude base cs).toOption
  match s with
  | '0' :: 'x' :: cs | '0' :: 'X' :: cs => read 16 cs
  | '0' :: 'b' :: cs | '0' :: 'B' :: cs => read 2 cs
  | '0' :: 'o' :: cs | '0' :: 'O' :: cs => read 8 cs
  | ['0'] => some 0
  | '0' :: cs => read 8 cs
  | cs => read 10 cs

/--
Whether a text is a whole number of 64 bits, with or without sign. The sign of a binary number may also
stand after the letter of its base.
-/
def isInt (s : List Char) : Bool :=
  match s with
  | '-' :: cs => (magnitude? cs).any (· ≤ Nat.pow 2 63)
  | '+' :: cs => (magnitude? cs).any (· < Nat.pow 2 63)
  | '0' :: 'b' :: cs => (magnitude? s).isSome || (Numeral.readInt 2 cs).isOk
  | cs => (magnitude? cs).isSome

/-- Whether a text is a decimal fraction that is not too large. -/
def isFloat (s : List Char) : Bool :=
  match s with
  | '-' :: cs | '+' :: cs => (Numeral.readDecimalFloat false cs).isOk
  | cs => (Numeral.readDecimalFloat false cs).isOk

/-- Whether every underscore stands between two digits; `digit` says whether one stands before. -/
def separatesDigits : (digit : Bool) → List Char → Bool
  | _, [] => true
  | digit, '_' :: cs =>
    digit && (cs.head?.map Char.isDigit).getD false && separatesDigits false cs
  | _, c :: cs => separatesDigits c.isDigit cs

/-- Whether a text that starts with a point is a decimal fraction. Underscores may separate its digits. -/
def isPointFloat (s : List Char) : Bool :=
  separatesDigits false s && isFloat (s.filter (· ≠ '_'))

/-! ## Dates -/

/-- The value of a digit. -/
def digit? (c : Char) : Option Nat := if c.isDigit then some (c.toNat - '0'.toNat) else none

/-- A number of one or two digits, within bounds, and the rest. -/
def short? (least greatest : Nat) (s : List Char) : Option (Nat × List Char) := do
  let (n, rest) ← match s with
    | c :: d :: rest => do
      let n ← digit? c
      match digit? d with
      | some m => some (n * 10 + m, rest)
      | none => some (n, d :: rest)
    | [c] => do some (← digit? c, [])
    | [] => none
  if least ≤ n && n ≤ greatest then some (n, rest) else none

/-- The rest after a character that must be there. -/
def after? (c : Char) : List Char → Option (List Char)
  | d :: rest => if c = d then some rest else none
  | [] => none

/-- The rest after the time of a day; its seconds may have a fraction. -/
def time? (s : List Char) : Option (List Char) := do
  let (_, s) ← short? 0 23 s
  let (_, s) ← short? 0 59 (← after? ':' s)
  let (_, s) ← short? 0 59 (← after? ':' s)
  match s with
  | p :: d :: rest =>
    if (p = '.' || p = ',') && d.isDigit then some (rest.dropWhile Char.isDigit) else some s
  | _ => some s

/-- Whether a text is the offset of a zone. -/
def isZone : List Char → Bool
  | ['Z'] => true
  | [sign, a, b, ':', c, d] =>
    let number := fun x y => do return (← digit? x) * 10 + (← digit? y)
    (sign = '+' || sign = '-') && (number a b).any (· ≤ 24) && (number c d).any (· ≤ 60)
  | _ => false

/-- The number of days in a month. -/
def daysIn (year month : Nat) : Int :=
  Moment.dayNumber (if month = 12 then year + 1 else year) (if month = 12 then 1 else month + 1) 1 -
    Moment.dayNumber year month 1

/-- Whether a text is a date, alone or with a time; any number of spaces may stand between the two. -/
def isTimestamp (s : List Char) : Bool := Option.isSome do
  let digits := s.takeWhile Char.isDigit
  guard (digits.length = 4)
  let year := digits.foldl (fun n c => n * 10 + (c.toNat - '0'.toNat)) 0
  let (month, s) ← short? 1 12 (← after? '-' (s.drop 4))
  let (day, s) ← short? 1 31 (← after? '-' s)
  guard ((day : Int) ≤ daysIn year month)
  match s with
  | [] => pure ()
  | 'T' :: s | 't' :: s => guard (isZone (← time? s))
  | ' ' :: s => guard ((← time? (s.dropWhile (· = ' '))) = [])
  | _ => none

/-! ## Scalars -/

/-- What a plain scalar stands for. Only a digit, a sign or a point can start a number or a date. -/
def plainMeaning (text : String) : Meaning :=
  match word? text with
  | some m => m
  | none =>
    match text.toList with
    | '.' :: cs => if isPointFloat ('.' :: cs) then .float else .str
    | c :: cs =>
      if c.isDigit || c = '+' || c = '-' then
        let bare := (c :: cs).filter (· ≠ '_')
        if isTimestamp (c :: cs) then .timestamp
        else if isInt bare then .int
        else if isFloat bare then .float
        else .str
      else .str
    | [] => .null

/-- What a scalar stands for. -/
def meaning (plain : Bool) (text : String) : Meaning :=
  if plain then plainMeaning text else .str

end ScriptPir.Yaml

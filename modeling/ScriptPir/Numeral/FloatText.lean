import ScriptPir.Numeral.Binary64
import ScriptPir.Numeral.Decimal

/-!
# Reading doubles

A text names a double as a decimal or hexadecimal fraction with an optional exponent, or by the
names of infinity and of the value that is no number. A fraction stands for the nearest double; one
beyond all doubles is out of range.
-/

namespace ScriptPir.Numeral

/-- The digits of a fraction in some base: the number `mantissa / base ^ places`. -/
structure Fraction where
  mantissa : Nat
  places : Nat
deriving DecidableEq, Repr

/-- Digits with at most one point among them, and the rest. There must be a digit. -/
def readFraction (base : Nat) (s : List Char) : Except Fault (Fraction × List Char) :=
  let isDigit := fun c => match digitValue? c with | some d => d < base | none => false
  let value := fun (ds : List Char) =>
    ds.foldl (fun n c => n * base + (digitValue? c).getD 0) 0
  let whole := s.takeWhile isDigit
  match s.dropWhile isDigit with
  | '.' :: rest =>
    let fraction := rest.takeWhile isDigit
    if whole = [] ∧ fraction = [] then .error .malformed
    else .ok (⟨value (whole ++ fraction), fraction.length⟩, rest.dropWhile isDigit)
  | rest => if whole = [] then .error .malformed else .ok (⟨value whole, 0⟩, rest)

/-- Exponents are counted no further than this; all beyond give zero or are out of range. -/
def exponentLimit : Nat := 10000

/-- The digits of an exponent, which must fill the whole text. -/
def readExponentDigits (s : List Char) : Except Fault Nat :=
  if s = [] then .error .malformed
  else if s.all fun c => '0' ≤ c && c ≤ '9' then
    .ok (s.foldl
      (fun n c => if n < exponentLimit then n * 10 + (digitValue? c).getD 0 else n) 0)
  else .error .malformed

/-- An exponent with its sign. -/
def readExponent : List Char → Except Fault Int
  | '-' :: s => return -(← readExponentDigits s)
  | '+' :: s => return ← readExponentDigits s
  | s => return ← readExponentDigits s

/-- The positive double nearest to `mantissa * base ^ exponent`. -/
def nearestPower (negative : Bool) (mantissa base : Nat) (exponent : Int) : Except Fault Float :=
  let bits :=
    if 0 ≤ exponent then
      -- A power beyond all doubles need not be computed.
      if mantissa = 0 then 0
      else if 2000 ≤ exponent then Binary64.infinityBits
      else Binary64.nearestBits (mantissa * Nat.pow base exponent.toNat) 1
    else Binary64.nearestBits mantissa (Nat.pow base (-exponent).toNat)
  if Binary64.infinityBits ≤ bits then .error .outOfRange
  else .ok (Binary64.withSign negative bits)

/-- Reads an unsigned decimal number. -/
def readDecimalFloat (negative : Bool) (s : List Char) : Except Fault Float := do
  let (f, rest) ← readFraction 10 s
  let exponent ← match rest with
    | [] => pure 0
    | 'e' :: rest | 'E' :: rest => readExponent rest
    | _ => throw .malformed
  nearestPower negative f.mantissa 10 (exponent - f.places)

/-- Reads an unsigned hexadecimal number after its mark; the exponent of two must be there. -/
def readHexFloat (negative : Bool) (s : List Char) : Except Fault Float := do
  let (f, rest) ← readFraction 16 s
  let exponent ← match rest with
    | 'p' :: rest | 'P' :: rest => readExponent rest
    | _ => throw .malformed
  nearestPower negative f.mantissa 2 (exponent - 4 * f.places)

/-- The names of special values, in lower case. -/
def specialFloat? (s : List Char) : Option Float :=
  match String.ofList (s.map Char.toLower) with
  | "inf" | "infinity" | "+inf" | "+infinity" => some (1.0 / 0.0)
  | "-inf" | "-infinity" => some (-1.0 / 0.0)
  | "nan" => some (0.0 / 0.0)
  | _ => none

/-- Reads a number after its sign. -/
def readUnsignedFloat (negative : Bool) : List Char → Except Fault Float
  | '0' :: 'x' :: s | '0' :: 'X' :: s => readHexFloat negative s
  | s => readDecimalFloat negative s

/-- Reads a double. -/
def readFloat (s : List Char) : Except Fault Float :=
  match specialFloat? s with
  | some x => .ok x
  | none =>
    match s with
    | '-' :: s => readUnsignedFloat true s
    | '+' :: s => readUnsignedFloat false s
    | s => readUnsignedFloat false s

end ScriptPir.Numeral

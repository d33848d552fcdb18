import ScriptPir.Text.Quoted

/-!
# Whole numbers as text

Numbers are words of 64 bits. They are written in decimal, and read in decimal or hexadecimal with
an optional sign; a text that is no numeral and a number that does not fit are told apart.
-/

namespace ScriptPir.Numeral

/-- The decimal numeral of a natural number. -/
def ofNat (n : Nat) : String := String.ofList (Nat.toDigits 10 n)

theorem ofNat_inj {m n : Nat} : ofNat m = ofNat n ↔ m = n := by
  refine ⟨fun h => ?_, congrArg ofNat⟩
  have hvalue := congrArg (Nat.ofDigitChars 10 · 0) (String.ofList_injective h)
  simpa only [Nat.ofDigitChars_ten_toDigits] using hvalue

/-- The decimal numeral of an integer. -/
def ofInt (i : Int) : String := if i < 0 then "-" ++ ofNat i.natAbs else ofNat i.natAbs

/-- Why a text is not read as a number. -/
inductive Fault where
  | malformed
  | outOfRange
deriving DecidableEq, Repr

/-- What a fault is called in messages. -/
def Fault.message : Fault → String
  | malformed => "invalid syntax"
  | outOfRange => "value out of range"

/-- The value of a digit in bases up to thirty-six. -/
def digitValue? (c : Char) : Option Nat :=
  if '0' ≤ c ∧ c ≤ '9' then some (c.toNat - '0'.toNat)
  else if 'a' ≤ c ∧ c ≤ 'z' then some (c.toNat - 'a'.toNat + 10)
  else if 'A' ≤ c ∧ c ≤ 'Z' then some (c.toNat - 'A'.toNat + 10)
  else none

/--
Reads digits from left to right onto the number `n`. The first digit that is none and the first
number that does not fit 64 bits end the reading, whichever comes first.
-/
def readDigits (base : Nat) : (n : Nat) → List Char → Except Fault Nat
  | n, [] => .ok n
  | n, c :: cs =>
    match digitValue? c with
    | none => .error .malformed
    | some d =>
      if base ≤ d then .error .malformed
      else if Nat.pow 2 64 ≤ n * base + d then .error .outOfRange
      else readDigits base (n * base + d) cs

/-- Reads the magnitude of a number; there must be a digit. -/
def readMagnitude (base : Nat) : List Char → Except Fault Nat
  | [] => .error .malformed
  | cs => readDigits base 0 cs

/-- Reads a signed number of 64 bits. -/
def readInt (base : Nat) (s : List Char) : Except Fault Int64 := do
  match s with
  | '-' :: cs =>
    let n ← readMagnitude base cs
    if n ≤ Nat.pow 2 63 then return Int64.ofInt (-n) else throw .outOfRange
  | '+' :: cs =>
    let n ← readMagnitude base cs
    if n < Nat.pow 2 63 then return Int64.ofNat n else throw .outOfRange
  | cs =>
    let n ← readMagnitude base cs
    if n < Nat.pow 2 63 then return Int64.ofNat n else throw .outOfRange

end ScriptPir.Numeral

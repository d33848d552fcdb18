import ScriptPir.Numeral.Power
import ScriptPir.Value

/-!
# Constant folding

Arithmetic on constants. Integers are words of 64 bits that wrap; division truncates. A fold that
fails has a reason, which is reported to the programmer, and the operation is left to the run time.
-/

namespace ScriptPir

/-- Why two constants cannot be combined. -/
inductive FoldError where
  | divisionByZero
  | floatOutOfRange
  | repetitionTooLong
  | unsupported (op : String) (l r : ValueKind)
  | unsupportedNeg (kind : ValueKind)
deriving DecidableEq, Repr

/-- The text of an error. -/
def FoldError.message : FoldError → String
  | divisionByZero => "Division by zero!"
  | floatOutOfRange => "Float result out of range!"
  | repetitionTooLong => "String repetition too long!"
  | unsupported op l r =>
    "Unsupported operands for " ++ op ++ ": " ++ l.name ++ " and " ++ r.name ++ "!"
  | unsupportedNeg kind => "Unsupported operand for -: " ++ kind.name ++ "!"

namespace Fold

/-- The `n`-th power of a word, by repeated squaring. -/
def power (x : Int64) (n : Nat) : Int64 :=
  if n = 0 then 1
  else
    let half := power (x * x) (n / 2)
    if n % 2 = 1 then x * half else half
termination_by n

/-- Combines two integers. -/
def ints (op : String) (l r : Int64) : Except FoldError Value :=
  match op with
  | "+" => .ok (.int (l + r))
  | "-" => .ok (.int (l - r))
  | "*" => .ok (.int (l * r))
  | "/" => if r = 0 then .error .divisionByZero else .ok (.int (l / r))
  | "%" => if r = 0 then .error .divisionByZero else .ok (.int (l % r))
  | "**" =>
    if r < 0 then .error (.unsupported op .integer .integer)
    else .ok (.int (power l r.toNatClampNeg))
  | _ => .error (.unsupported op .integer .integer)

/-- The result of an operation on doubles, if it is a number. -/
def finite (x : Float) : Except FoldError Value :=
  if (Numeral.Binary64.ofFloat x).isFinite then .ok (.float x) else .error .floatOutOfRange

/-- Combines two doubles that came from operands of the given kinds. -/
def floats (op : String) (kl kr : ValueKind) (l r : Float) : Except FoldError Value :=
  match op with
  | "+" => finite (l + r)
  | "-" => finite (l - r)
  | "*" => finite (l * r)
  | "/" => if r == 0 then .error .divisionByZero else finite (l / r)
  | "%" => if r == 0 then .error .divisionByZero else finite (Numeral.Binary64.remainder l r)
  | "**" => finite (Numeral.Binary64.power l r)
  | _ => .error (.unsupported op kl kr)

/-- The most bytes of a string made by repetition. -/
def maxRepeat : Int64 := 16777216

/-- A text with `n` copies of another behind it, by repeated doubling of the copy. -/
def copiesOnto (acc s : String) (n : Nat) : String :=
  if n = 0 then acc
  else
    let acc := if n % 2 = 1 then acc ++ s else acc
    if n = 1 then acc else copiesOnto acc (s ++ s) (n / 2)
termination_by n

/-- `n` copies of a text. -/
def copies (s : String) (n : Nat) : String := copiesOnto "" s n

/--
Repeats a string; a count below one gives the empty string. What is too long is known beforehand: the
product might not fit into a word, so the length of one copy is compared with a quotient.
-/
def repeated (s : String) (n : Int64) : Except FoldError Value :=
  if 0 < n ∧ (maxRepeat / n).toNatClampNeg < s.utf8ByteSize then .error .repetitionTooLong
  else .ok (.str (copies s n.toNatClampNeg))

end Fold

/-- Combines two constants by an arithmetic operator. -/
def fold (op : String) (l r : Value) : Except FoldError Value :=
  let unsupported := .error (.unsupported op l.kind r.kind)
  match l, r with
  | .int a, .int b => Fold.ints op a b
  | .int a, .float b => Fold.floats op .integer .float a.toFloat b
  | .float a, .int b => Fold.floats op .float .integer a b.toFloat
  | .float a, .float b => Fold.floats op .float .float a b
  | .str a, .str b => if op = "+" then .ok (.str (a ++ b)) else unsupported
  | .str a, .int n => if op = "*" then Fold.repeated a n else unsupported
  | .int n, .str a => if op = "*" then Fold.repeated a n else unsupported
  | _, _ => unsupported

/-- Negates a constant. -/
def foldNeg : Value → Except FoldError Value
  | .int n => .ok (.int (-n))
  | .float x => .ok (.float (-x))
  | v => .error (.unsupportedNeg v.kind)

end ScriptPir

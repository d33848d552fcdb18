/-!
# Exact arithmetic on doubles

A finite double is a sign and a number `m * 2 ^ q`. Everything here works on that form in natural
numbers: the nearest double to a fraction, the remainder of two doubles, and the fewest decimal
digits that still name a double.
-/

namespace ScriptPir.Numeral

/-- A double taken apart. -/
inductive Binary64 where
  | nan
  | infinite (negative : Bool)
  /-- The number `m * 2 ^ q`, with a sign. -/
  | finite (negative : Bool) (m : Nat) (q : Int)
deriving DecidableEq, Repr

namespace Binary64

/-- The least exponent of a double. -/
def minExponent : Int := -1074

/-- Takes the bits of a double apart. -/
def ofBits (bits : UInt64) : Binary64 :=
  let n := bits.toNat
  let negative := n / Nat.pow 2 63 == 1
  let exponent : Nat := n / Nat.pow 2 52 % Nat.pow 2 11
  let fraction : Nat := n % Nat.pow 2 52
  if exponent == 2047 then
    if fraction == 0 then infinite negative else nan
  else if exponent == 0 then finite negative fraction minExponent
  else finite negative (Nat.pow 2 52 + fraction) ((exponent : Int) - 1 + minExponent)

/-- Takes a double apart. -/
def ofFloat (x : Float) : Binary64 := ofBits x.toBits

/-- Whether a double is a number. -/
def isFinite : Binary64 → Bool
  | finite .. => true
  | _ => false

/-- The quotient of two numbers to the nearest whole number, a half to the even one. -/
def roundDiv (num den : Nat) : Nat :=
  let q := num / den
  let r := num % den
  if 2 * r < den then q
  else if den < 2 * r then q + 1
  else q + q % 2

/-- The fraction `num / den` divided by `2 ^ e`. -/
def scale (num den : Nat) (e : Int) : Nat × Nat :=
  if 0 ≤ e then (num, den * Nat.pow 2 e.toNat) else (num * Nat.pow 2 (-e).toNat, den)

/-- The bits of positive infinity, just above those of all finite numbers. -/
def infinityBits : Nat := 2047 * Nat.pow 2 52

/--
The bits of the positive double nearest to `num / den`, a tie to the even one; `infinityBits` or
more if the fraction is too large for a double.
-/
def nearestBits (num den : Nat) : Nat :=
  if num = 0 then 0
  else
    let low := max minExponent ((num.log2 : Int) - den.log2 - 53)
    let (n, d) := scale num den low
    -- One of two neighbouring exponents leaves a whole part of 53 bits.
    let e := if Nat.pow 2 53 ≤ n / d then low + 1 else low
    let (n, d) := scale num den e
    (e - minExponent).toNat * Nat.pow 2 52 + roundDiv n d

/-- The double with a sign and given bits below the sign. -/
def withSign (negative : Bool) (bits : Nat) : Float :=
  Float.ofBits (UInt64.ofNat (if negative then Nat.pow 2 63 + bits else bits))

/-- The remainder of a division truncated towards zero; it has the sign of the dividend. -/
def remainder (x y : Float) : Float :=
  match ofFloat x, ofFloat y with
  | finite negative mx qx, finite _ my qy =>
    let q := min qx qy
    let r := (mx * Nat.pow 2 (qx - q).toNat) % (my * Nat.pow 2 (qy - q).toNat)
    let (n, d) := scale r 1 (-q)
    withSign negative (nearestBits n d)
  | finite .., infinite _ => x
  | _, _ => 0.0 / 0.0

/-! ## The fewest digits -/

/-- Decimal digits and an exponent: the number `digits * 10 ^ exponent`. -/
structure Digits where
  digits : Nat
  exponent : Int
deriving DecidableEq, Repr

/-- The reals that round to a double, as fractions over one denominator. -/
structure Interval where
  low : Nat
  value : Nat
  high : Nat
  den : Nat
  /-- Whether the ends round to the double too. -/
  closed : Bool
deriving DecidableEq, Repr

/-- The reals that round to `m * 2 ^ q`. Below a power of two the next double is half as far. -/
def interval (m : Nat) (q : Int) : Interval :=
  let near := m == Nat.pow 2 52 && minExponent < q
  let (unit, den) := scale 1 1 (2 - q)
  { low := (if near then 4 * m - 1 else 4 * m - 2) * unit
    value := 4 * m * unit
    high := (4 * m + 2) * unit
    den
    closed := m % 2 == 0 }

/-- Whether `c * 10 ^ k` rounds to the double. -/
def Interval.contains (i : Interval) (c : Nat) (k : Int) : Bool :=
  let (x, s) := if 0 ≤ k then (c * Nat.pow 10 k.toNat * i.den, 1) else (c * i.den, Nat.pow 10 (-k).toNat)
  if i.closed then i.low * s ≤ x && x ≤ i.high * s else i.low * s < x && x < i.high * s

/-- How many times a fraction below one must be multiplied by ten to reach one, up to `fuel`. -/
def leadingZeros (den : Nat) : (fuel num : Nat) → Nat
  | 0, _ => 0
  | fuel + 1, num => if den ≤ num then 0 else leadingZeros den fuel (num * 10) + 1

/-- The exponent `e` with `10 ^ (e - 1) ≤ num / den < 10 ^ e`. -/
def decimalExponent (num den : Nat) : Int :=
  if den ≤ num then (Nat.toDigits 10 (num / den)).length
  else 1 - (leadingZeros den 400 num : Int)

/-- The best decimal on the grid of multiples of `10 ^ k`, if one of them rounds to the double. -/
def Interval.onGrid (i : Interval) (k : Int) : Option Digits :=
  let (n, d) := if 0 ≤ k then (i.value, i.den * Nat.pow 10 k.toNat) else (i.value * Nat.pow 10 (-k).toNat, i.den)
  let below := n / d
  let nearest := roundDiv n d
  let other := if nearest = below then below + 1 else below
  if i.contains nearest k then some ⟨nearest, k⟩
  else if i.contains other k then some ⟨other, k⟩
  else none

/-- The best decimal on the first of `tries` grids, from a coarse one on, that has one. -/
def Interval.firstGrid (i : Interval) : (tries : Nat) → (k : Int) → Digits
  | 0, k => ⟨roundDiv i.value i.den, k⟩
  | tries + 1, k => (i.onGrid k).getD (i.firstGrid tries (k - 1))

/-- The shortest decimal that reads back as the positive double `m * 2 ^ q`. -/
def shortest (m : Nat) (q : Int) : Digits :=
  let i := interval m q
  i.firstGrid 18 (decimalExponent i.value i.den - 1)

/-- The digits of a decimal without zeros at the end, and the place of its point among them. -/
def Digits.toPointed (d : Digits) : List Char × Int :=
  let all := Nat.toDigits 10 d.digits
  ((all.reverse.dropWhile (· = '0')).reverse, all.length + d.exponent)

/-- Digits with a point after the first `point` of them; zeros fill what is missing. -/
def positional (digits : List Char) (point : Int) : List Char :=
  if point ≤ 0 then '0' :: '.' :: List.replicate (-point).toNat '0' ++ digits
  else if digits.length ≤ point then
    digits ++ List.replicate (point.toNat - digits.length) '0' ++ ['.', '0']
  else digits.take point.toNat ++ '.' :: digits.drop point.toNat

/-- A double in positional notation, with the fewest digits that read back and always a point. -/
def toText : Binary64 → String
  | nan => "NaN"
  | infinite negative => if negative then "-Inf" else "+Inf"
  | finite negative m q =>
    let body :=
      if m = 0 then "0.0"
      else
        let (digits, point) := (shortest m q).toPointed
        String.ofList (positional digits point)
    if negative then "-" ++ body else body

end Binary64

/-- A double in positional notation, with the fewest digits that read back and always a point. -/
def ofFloat (x : Float) : String := (Binary64.ofFloat x).toText

end ScriptPir.Numeral

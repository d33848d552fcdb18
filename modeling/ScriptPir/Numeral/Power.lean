import ScriptPir.Numeral.Binary64

/-!
# Powers of doubles

A power is a product of squares of its base. The fractions of the squares and of the product are doubles,
and their exponents are integers of their own, so that nothing is too large or too small on the way. Only
what an exponent has behind its point is left to the logarithm and the exponential function.
-/

namespace ScriptPir.Numeral.Binary64

/-! ## Doubles taken apart -/

/-- The absolute value of a double as a fraction of natural numbers, if it is a number. -/
def magnitude? (x : Float) : Option (Nat × Nat) :=
  match ofFloat x with
  | finite _ m q => some (scale m 1 (-q))
  | _ => none

/-- A double as a fraction between one half and one, with its sign, and a power of two. What has no such
fraction stays as it is. -/
def split (x : Float) : Float × Int :=
  match ofFloat x with
  | finite negative m q =>
    if m = 0 then (x, 0)
    else
      let bits := m.log2 + 1
      (withSign negative (nearestBits m (Nat.pow 2 bits)), q + bits)
  | _ => (x, 0)

/-- The double nearest to `x * 2 ^ e`. -/
def shift (x : Float) (e : Int) : Float :=
  match ofFloat x with
  | finite negative m q =>
    let (n, d) := scale m 1 (-(q + e))
    withSign negative (min infinityBits (nearestBits n d))
  | _ => x

/-- Whether a double is an odd whole number. -/
def isOdd (x : Float) : Bool :=
  match magnitude? x with
  | some (n, d) => n % d == 0 && n / d % 2 == 1
  | none => false

/-- The double that is no number. -/
def notNumber : Float := 0.0 / 0.0

/-- Positive infinity. -/
def infinity : Float := 1.0 / 0.0

/-! ## Logarithm and exponential function -/

/-- The high bits of the natural logarithm of two. Multiplied by a small integer, they stay exact. -/
def logTwoHigh : Float := 6.93147180369123816490e-01

/-- The natural logarithm of two, less its high bits. -/
def logTwoLow : Float := 1.90821492927058770002e-10

/--
The natural logarithm of a positive number. Its exponent gives a multiple of the logarithm of two; the
logarithm of its fraction `1 + f` is a series in `s = f / (2 + f)`, cut off and fitted.
-/
def log (x : Float) : Float :=
  let (fraction, exponent) := split x
  let (fraction, exponent) :=
    -- the fraction comes to lie around one, between the roots of one half and of two
    if fraction < 7.07106781186547524400e-01 then (fraction * 2, exponent - 1) else (fraction, exponent)
  let f := fraction - 1
  let k := Float.ofInt exponent
  let s := f / (2 + f)
  let s2 := s * s
  let s4 := s2 * s2
  let odd := s2 * (6.666666666666735130e-01 +
    s4 * (2.857142874366239149e-01 + s4 * (1.818357216161805012e-01 + s4 * 1.479819860511658591e-01)))
  let even := s4 * (3.999999999940941908e-01 + s4 * (2.222219843214978396e-01 + s4 * 1.531383769920937332e-01))
  let rest := odd + even
  let half := 0.5 * f * f
  k * logTwoHigh - ((half - (s * (half + rest) + k * logTwoLow)) - f)

/--
The exponential function of a number whose exponential is neither too large nor too small. The number is
a multiple of the logarithm of two and a rest `high - low`, for which a quotient is fitted.
-/
def exp (x : Float) : Float :=
  if -(1.0 / 268435456.0) < x && x < 1.0 / 268435456.0 then 1 + x
  else
    let k := (1.44269504088896338700 * x + (if x < 0 then -0.5 else 0.5)).toInt64.toInt
    let high := x - Float.ofInt k * logTwoHigh
    let low := Float.ofInt k * logTwoLow
    let r := high - low
    let t := r * r
    let c := r - t * (1.66666666666666657415e-01 + t * (-2.77777777770155933842e-03 +
      t * (6.61375632143793436117e-05 + t * (-1.65339022054652515390e-06 + t * 4.13813679705723846039e-08))))
    shift (1 - ((low - (r * c) / (2 - c)) - high)) k

/-! ## Powers -/

/--
`a * 2 ^ e` times the `n`-th power of `x * 2 ^ k`, by repeated squaring. With an exponent like that of the
largest squares, the power is too large or too small for a double anyway, and the rest is left out.
-/
def squares (x : Float) (k : Int) (a : Float) (e : Int) (n : Nat) : Float × Int :=
  if n = 0 then (a, e)
  else if k < -4096 ∨ 4096 < k then (a, e + k)
  else
    let (a, e) := if n % 2 = 1 then (a * x, e + k) else (a, e)
    let square := x * x
    -- a fraction keeps between one half and one
    if square < 0.5 then squares (square + square) (2 * k - 1) a e (n / 2)
    else squares square (2 * k) a e (n / 2)
termination_by n

/-- A power of zero, which has a sign, to an exponent that is neither zero nor no number. -/
def powerOfZero (x y : Float) : Float :=
  let signed := isOdd y
  if y < 0 then if signed then 1 / x else infinity
  else if signed then x else 0

/-- A power of a number that is not zero, to an exponent that is a number. -/
def powerOfFinite (x y : Float) : Float :=
  match magnitude? y with
  | none => notNumber
  | some (n, d) =>
    let whole := n / d
    let rest := withSign false (nearestBits (n % d) d)
    if rest != 0 && x < 0 then notNumber
    else if Nat.pow 2 63 ≤ whole then
      -- an even exponent, beyond all bounds for a base other than one and minus one
      if x == -1 then 1 else if (x.abs < 1) == (0 < y) then 0 else infinity
    else
      -- what is behind the point is at most one half
      let (whole, rest) := if 0.5 < rest then (whole + 1, rest - 1) else (whole, rest)
      let start := if rest == 0 then 1 else exp (rest * log x)
      let (fraction, exponent) := split x
      let (a, e) := squares fraction exponent start 0 whole
      if y < 0 then shift (1 / a) (-e) else shift a e

/-- The power of a double to a double. -/
def power (x y : Float) : Float :=
  if y == 0 || x == 1 then 1
  else if y == 1 then x
  else if x.isNaN || y.isNaN then notNumber
  else if x == 0 then powerOfZero x y
  else if y.isInf then
    if x == -1 then 1 else if (x.abs < 1) == (0 < y) then 0 else infinity
  else if x.isInf then
    -- the power of negative infinity is that of negative zero to the opposite exponent
    if x < 0 then powerOfZero (-0.0) (-y) else if y < 0 then 0 else infinity
  else if y == 0.5 then x.sqrt
  else if y == -0.5 then 1 / x.sqrt
  else powerOfFinite x y

end ScriptPir.Numeral.Binary64

import Mathlib
import ScriptPir.Numeral.FloatText

/-!
# Rounding to doubles

A fraction is rounded to a double in two steps: an exponent is found that leaves a whole part of 53 bits, or is the
least one, and the fraction scaled by it is rounded to a whole number, to the even one of two.

* `isNearest_roundDiv` — a quotient is rounded to the nearest whole number;
* `exists_nearestBits` — the exponent and the whole number that the nearest double is made of;
* `nearestBits_of_rounds` — what is no further from a double than half the distance to its neighbours rounds to it.

All comparisons are between fractions, so nothing is said about how doubles are stored until the last
section. `Canonical` pairs of digits and an exponent are the doubles; the least exponent makes room for
those that have fewer digits.
-/

namespace ScriptPir.Numeral

namespace Binary64

/-! ## Whole numbers

What it means to be the nearest whole number is said over the rationals, apart from the algorithm,
which compares remainders. -/

/-- The whole number nearest to a number, and the even one if there are two. -/
structure IsNearest (r : Nat) (x : ℚ) : Prop where
  low : (r : ℚ) - 1 / 2 ≤ x
  high : x ≤ r + 1 / 2
  odd : ¬ Even r → (r : ℚ) - 1 / 2 < x ∧ x < r + 1 / 2

/-- Of two nearest whole numbers, neither is larger. -/
theorem IsNearest.le {r r' : Nat} {x : ℚ} (h : IsNearest r x) (h' : IsNearest r' x) : r ≤ r' := by
  by_contra hlt
  -- both are a half away, but one of them is odd
  have hnext : (r' : ℚ) + 1 ≤ r := by exact_mod_cast Nat.lt_of_not_le hlt
  have hlow := h.low
  have hhigh := h'.high
  have heq : r = r' + 1 := by
    have hq : (r : ℚ) = r' + 1 := by linarith
    exact_mod_cast hq
  by_cases heven : Even r'
  · have hodd : ¬ Even r := by rw [heq, Nat.even_add_one, not_not]; exact heven
    linarith [(h.odd hodd).1]
  · linarith [(h'.odd heven).2]

theorem IsNearest.unique {r r' : Nat} {x : ℚ} (h : IsNearest r x) (h' : IsNearest r' x) : r = r' :=
  Nat.le_antisymm (h.le h') (h'.le h)

/-- A quotient is rounded to the nearest whole number. -/
theorem isNearest_roundDiv (n : Nat) {d : Nat} (hd : 0 < d) : IsNearest (roundDiv n d) (n / d) := by
  have hpos : (0 : ℚ) < d := by exact_mod_cast hd
  have hmod := Nat.mod_lt n hd
  have hdiv := Nat.div_add_mod n d
  -- in integers, where twice the remainder is compared with the divisor
  obtain ⟨hlow, hhigh, hodd⟩ : 2 * (d * roundDiv n d) ≤ 2 * n + d ∧ 2 * n ≤ 2 * (d * roundDiv n d) + d ∧
      (roundDiv n d % 2 = 1 → 2 * (d * roundDiv n d) < 2 * n + d ∧ 2 * n < 2 * (d * roundDiv n d) + d) := by
    unfold roundDiv
    simp only
    split
    · omega
    · split
      · rw [Nat.mul_add]
        omega
      · rcases Nat.mod_two_eq_zero_or_one (n / d) with h | h <;> rw [h, Nat.mul_add] <;> omega
  generalize roundDiv n d = r at hlow hhigh hodd
  -- the same divided by the divisor
  refine ⟨?_, ?_, fun hr => ?_⟩
  · have hq : (2 * (d * r) : ℚ) ≤ 2 * n + d := by exact_mod_cast hlow
    rw [le_div_iff₀ hpos]
    linarith
  · have hq : (2 * n : ℚ) ≤ 2 * (d * r) + d := by exact_mod_cast hhigh
    rw [div_le_iff₀ hpos]
    linarith
  · obtain ⟨hlow, hhigh⟩ := hodd (Nat.not_even_iff.mp hr)
    have hqLow : (2 * (d * r) : ℚ) < 2 * n + d := by exact_mod_cast hlow
    have hqHigh : (2 * n : ℚ) < 2 * (d * r) + d := by exact_mod_cast hhigh
    rw [lt_div_iff₀ hpos, div_lt_iff₀ hpos]
    constructor <;> linarith

/-! ## Scaling

A fraction is scaled by multiplying one of its parts, so that no division is needed before the last
step. -/

/-- A fraction divided by a power of a base, as it is written with natural numbers. -/
theorem shifted_eq (base : Nat) (hbase : 0 < base) (num : Nat) {den : Nat} (hden : 0 < den) (e : Int) :
    ∃ n d : Nat, (if 0 ≤ e then (num, den * Nat.pow base e.toNat) else (num * Nat.pow base (-e).toNat, den)) = (n, d) ∧
      0 < d ∧ (n : ℚ) / d = num / den / base ^ e := by
  have hden' : (den : ℚ) ≠ 0 := by exact_mod_cast hden.ne'
  have hbase' : (base : ℚ) ≠ 0 := by exact_mod_cast hbase.ne'
  split
  · rename_i he
    obtain ⟨k, rfl⟩ := Int.eq_ofNat_of_zero_le he
    refine ⟨_, _, rfl, Nat.mul_pos hden (Nat.pow_pos hbase), ?_⟩
    rw [Int.toNat_natCast, Nat.pow_eq, zpow_natCast, Nat.cast_mul, Nat.cast_pow, div_div]
  · rename_i he
    obtain ⟨k, hk⟩ := Int.eq_ofNat_of_zero_le (a := -e) (by omega)
    obtain rfl : e = -(k : Int) := by omega
    refine ⟨_, _, rfl, hden, ?_⟩
    rw [neg_neg, Int.toNat_natCast, Nat.pow_eq, zpow_neg, zpow_natCast, Nat.cast_mul, Nat.cast_pow, div_inv_eq_mul,
      div_mul_eq_mul_div]

/-- The denominator of a scaled fraction is positive. -/
theorem scale_pos (num : Nat) {den : Nat} (hden : 0 < den) (e : Int) : 0 < (scale num den e).2 := by
  obtain ⟨n, d, hpair, hd, -⟩ := shifted_eq 2 (by decide) num hden e
  rw [scale, hpair]
  exact hd

/-- A scaled fraction is the fraction over a power of two. -/
theorem scale_eq (num : Nat) {den : Nat} (hden : 0 < den) (e : Int) :
    ((scale num den e).1 : ℚ) / (scale num den e).2 = num / den / 2 ^ e := by
  obtain ⟨n, d, hpair, -, hscaled⟩ := shifted_eq 2 (by decide) num hden e
  rw [scale, hpair]
  exact hscaled

/-- The binary logarithms of a fraction's parts tell its size up to a factor of four. -/
theorem log2_bounds {num den : Nat} (hnum : 0 < num) (hden : 0 < den) :
    (2 : ℚ) ^ ((num.log2 : Int) - den.log2 - 1) < num / den ∧
      (num : ℚ) / den < 2 ^ ((num.log2 : Int) - den.log2 + 1) := by
  have hpos : (0 : ℚ) < den := by exact_mod_cast hden
  -- each of the two numbers is between two powers of two
  have hnumLow : (2 : ℚ) ^ (num.log2 : Int) ≤ num := by
    rw [zpow_natCast]
    exact_mod_cast Nat.log2_self_le hnum.ne'
  have hnumHigh : (num : ℚ) < 2 ^ ((num.log2 : Int) + 1) := by
    have hlt : num < 2 ^ (num.log2 + 1) := Nat.lt_log2_self
    rw [← Nat.cast_succ, zpow_natCast]
    exact_mod_cast hlt
  have hdenLow : (2 : ℚ) ^ (den.log2 : Int) ≤ den := by
    rw [zpow_natCast]
    exact_mod_cast Nat.log2_self_le hden.ne'
  have hdenHigh : (den : ℚ) < 2 ^ ((den.log2 : Int) + 1) := by
    have hlt : den < 2 ^ (den.log2 + 1) := Nat.lt_log2_self
    rw [← Nat.cast_succ, zpow_natCast]
    exact_mod_cast hlt
  have htwo : (0 : ℚ) < 2 := by norm_num
  constructor
  · rw [lt_div_iff₀ hpos]
    calc (2 : ℚ) ^ ((num.log2 : Int) - den.log2 - 1) * den
        < 2 ^ ((num.log2 : Int) - den.log2 - 1) * 2 ^ ((den.log2 : Int) + 1) :=
          mul_lt_mul_of_pos_left hdenHigh (zpow_pos htwo _)
      _ = 2 ^ (num.log2 : Int) := by rw [← zpow_add₀ htwo.ne']; congr 1; ring
      _ ≤ num := hnumLow
  · rw [div_lt_iff₀ hpos]
    calc (num : ℚ) < 2 ^ ((num.log2 : Int) + 1) := hnumHigh
      _ = 2 ^ ((num.log2 : Int) - den.log2 + 1) * 2 ^ (den.log2 : Int) := by
          rw [← zpow_add₀ htwo.ne']; congr 1; ring
      _ ≤ 2 ^ ((num.log2 : Int) - den.log2 + 1) * den :=
          mul_le_mul_of_nonneg_left hdenLow (zpow_pos htwo _).le

/-- A quotient of numbers is at least a number if the fraction is. -/
theorem le_div_iff_cast {n d k : Nat} (hd : 0 < d) : k ≤ n / d ↔ (k : ℚ) ≤ n / d := by
  rw [Nat.le_div_iff_mul_le hd, le_div_iff₀ (by exact_mod_cast hd)]
  exact_mod_cast Iff.rfl

/-! ## The exponent

The logarithms of the parts leave two exponents to choose from; the algorithm tries the smaller one,
and takes the next if the whole part is too long. -/

/-- An exponent that leaves a whole part of 53 bits, or is the least one. -/
structure Fits (e : Int) (v : ℚ) : Prop where
  least : minExponent ≤ e
  lt : v / 2 ^ e < 2 ^ 53
  normal : minExponent < e → 2 ^ 52 ≤ v / 2 ^ e

/-- With the binary logarithms of its parts a fraction is scaled to a whole part of 53 or 54 bits. -/
theorem scaled_bounds {num den : Nat} (hnum : 0 < num) (hden : 0 < den) {low : Int}
    (hlow : low = max minExponent ((num.log2 : Int) - den.log2 - 53)) :
    (num : ℚ) / den / 2 ^ low < 2 ^ 54 ∧ (minExponent < low → 2 ^ 52 ≤ (num : ℚ) / den / 2 ^ low) := by
  have htwo : (0 : ℚ) < 2 := by norm_num
  obtain ⟨hlower, hupper⟩ := log2_bounds hnum hden
  generalize (num.log2 : Int) - den.log2 = span at hlow hlower hupper
  -- the exponent is 53 less than the difference of the logarithms, or the least one, which is more
  constructor
  · rw [div_lt_iff₀ (zpow_pos htwo _)]
    refine hupper.trans_le ?_
    calc (2 : ℚ) ^ (span + 1) ≤ 2 ^ ((54 : Int) + low) := zpow_le_zpow_right₀ (by norm_num) (by omega)
      _ = 2 ^ 54 * 2 ^ low := by rw [zpow_add₀ htwo.ne']; norm_num
  · intro hlt
    obtain rfl : low = span - 53 := by omega
    rw [le_div_iff₀ (zpow_pos htwo _)]
    refine le_trans ?_ hlower.le
    calc (2 : ℚ) ^ 52 * 2 ^ (span - 53) = 2 ^ ((52 : Int) + (span - 53)) := by
          rw [zpow_add₀ htwo.ne']; norm_num
      _ ≤ 2 ^ (span - 1) := zpow_le_zpow_right₀ (by norm_num) (by omega)

/-- The nearest double is made of an exponent that fits and of the nearest whole number that it leaves. -/
theorem exists_nearestBits {num den : Nat} (hnum : 0 < num) (hden : 0 < den) :
    ∃ (e : Int) (r : Nat), Fits e (num / den) ∧ IsNearest r (num / den / 2 ^ e) ∧
      nearestBits num den = (e - minExponent).toNat * 2 ^ 52 + r := by
  obtain ⟨low, hlow⟩ : ∃ low : Int, low = max minExponent ((num.log2 : Int) - den.log2 - 53) := ⟨_, rfl⟩
  obtain ⟨hlt, hge⟩ := scaled_bounds hnum hden hlow
  -- one more if the quotient has 54 bits
  obtain ⟨e, he⟩ : ∃ e : Int,
      e = if 2 ^ 53 ≤ (scale num den low).1 / (scale num den low).2 then low + 1 else low := ⟨_, rfl⟩
  have hbits : nearestBits num den =
      (e - minExponent).toNat * 2 ^ 52 + roundDiv (scale num den e).1 (scale num den e).2 := by
    unfold nearestBits
    rw [if_neg hnum.ne', he, hlow]
    rfl
  have hwide : 2 ^ 53 ≤ (scale num den low).1 / (scale num den low).2 ↔ 2 ^ 53 ≤ (num : ℚ) / den / 2 ^ low := by
    rw [le_div_iff_cast (scale_pos num hden low), scale_eq num hden low]
    norm_num
  refine ⟨e, _, ?_, scale_eq num hden e ▸ isNearest_roundDiv _ (scale_pos num hden e), hbits⟩
  split at he
  · rename_i hlarge
    have hmany := hwide.mp hlarge
    have hhalf : (num : ℚ) / den / 2 ^ e = num / den / 2 ^ low / 2 := by
      rw [he, zpow_add_one₀ two_ne_zero, ← div_div]
    refine ⟨by omega, ?_, fun _ => ?_⟩
    · rw [hhalf]; linarith
    · rw [hhalf]; linarith
  · rename_i hsmall
    subst he
    exact ⟨by omega, lt_of_not_ge (mt hwide.mpr hsmall), hge⟩

/-! ## Doubles

The shortest digits of a double are not its value, but they lie in the interval of numbers that round
to it. That interval is smaller below powers of two, where the exponent that fits may be one less
than that of the double. -/

/-- A positive double in the form in which it is taken apart. -/
structure Canonical (m : Nat) (q : Int) : Prop where
  pos : 0 < m
  lt : m < 2 ^ 53
  least : minExponent ≤ q
  normal : minExponent < q → 2 ^ 52 ≤ m

/-- Half the distance from a double to the one below it, in units in the last place. Below a power of two doubles
are twice as close. -/
def gap (m : Nat) (q : Int) : ℚ := if m = 2 ^ 52 ∧ minExponent < q then 1 / 4 else 1 / 2

/-- A number rounds to the double `m * 2 ^ q`: it is not further away than half the distance to its neighbours, and
nearer if `m` is odd. -/
structure Rounds (m : Nat) (q : Int) (v : ℚ) : Prop where
  low : (m : ℚ) - gap m q ≤ v / 2 ^ q
  high : v / 2 ^ q ≤ m + 1 / 2
  odd : ¬ Even m → (m : ℚ) - gap m q < v / 2 ^ q ∧ v / 2 ^ q < m + 1 / 2

/-- The distance to the double below is at most that to the one above. -/
theorem gap_le_half (m : Nat) (q : Int) : gap m q ≤ 1 / 2 := by
  unfold gap
  split <;> norm_num

section Rounds

variable {m : Nat} {q e : Int} {v : ℚ}

/-- What rounds to a double has its significand as the nearest whole number. -/
theorem Rounds.isNearest (h : Rounds m q v) : IsNearest m (v / 2 ^ q) := by
  have hgap := gap_le_half m q
  refine ⟨by linarith [h.low], h.high, fun hodd => ?_⟩
  obtain ⟨hlow, hhigh⟩ := h.odd hodd
  exact ⟨by linarith, hhigh⟩

/-- What rounds to a positive double is positive. -/
theorem Rounds.pos (h : Rounds m q v) (hm : 0 < m) : 0 < v := by
  have hpow : (0 : ℚ) < 2 ^ q := zpow_pos (by norm_num) q
  have hone : (1 : ℚ) ≤ m := by exact_mod_cast hm
  have hquotient : 0 < v / 2 ^ q := by linarith [h.low, gap_le_half m q]
  exact (div_pos_iff_of_pos_right hpow).mp hquotient

/-- A number scaled by a lesser exponent is greater. -/
theorem mul_pow_le (hv : 0 < v) {k : Nat} (h : k ≤ q - e) : v / 2 ^ q * 2 ^ k ≤ v / 2 ^ e := by
  have htwo : (0 : ℚ) < 2 := by norm_num
  have hsplit : v / 2 ^ e = v / 2 ^ q * 2 ^ (q - e) := by
    rw [zpow_sub₀ htwo.ne']
    field_simp
  rw [hsplit, ← zpow_natCast]
  exact mul_le_mul_of_nonneg_left (zpow_le_zpow_right₀ (by norm_num) h) (div_pos hv (zpow_pos htwo q)).le

/-- What rounds to a double needs no greater exponent. -/
theorem Rounds.exponent_le (hc : Canonical m q) (h : Rounds m q v) (hfits : Fits e v) : e ≤ q := by
  by_contra hlt
  have htwice := mul_pow_le (k := 1) (h.pos hc.pos) (q := e) (e := q) (by omega)
  have hbig := hfits.normal (lt_of_le_of_lt hc.least (lt_of_not_ge hlt))
  have hm : (m : ℚ) + 1 ≤ 2 ^ 53 := by exact_mod_cast hc.lt
  linarith [h.high]

/-- What rounds to a double and needs a lesser exponent is just below a power of two, and is rounded up to it. -/
theorem Rounds.below (hc : Canonical m q) (h : Rounds m q v) (hfits : Fits e v) (hlt : e < q) :
    m = 2 ^ 52 ∧ q = e + 1 ∧ IsNearest (2 ^ 53) (v / 2 ^ e) := by
  have hv := h.pos hc.pos
  have hnormal : minExponent < q := lt_of_le_of_lt hfits.least hlt
  have hfew := hfits.lt
  have hlow := h.low
  -- a smaller exponent would fit only if the digits are those of a power of two
  have hm : m = 2 ^ 52 := by
    have htwice := mul_pow_le (k := 1) hv (q := q) (e := e) (by omega)
    have hle : (m : ℚ) < 2 ^ 52 + 1 := by linarith [gap_le_half m q]
    exact le_antisymm (Nat.lt_succ_iff.mp (by exact_mod_cast hle)) (hc.normal hnormal)
  have hgap : gap m q = 1 / 4 := if_pos ⟨hm, hnormal⟩
  have hmq : (m : ℚ) = 2 ^ 52 := by rw [hm]; norm_num
  rw [hgap, hmq] at hlow
  -- and then only the next smaller one
  have hq : q = e + 1 := by
    by_contra hne
    have hfour := mul_pow_le (k := 2) hv (q := q) (e := e) (by omega)
    linarith
  have htwice : v / 2 ^ e = v / 2 ^ q * 2 := by
    rw [hq, zpow_add_one₀ two_ne_zero]
    field_simp
  refine ⟨hm, hq, ?_, ?_, fun hodd => absurd ⟨2 ^ 52, by norm_num⟩ hodd⟩
  · rw [htwice]; push_cast; linarith
  · push_cast; linarith

end Rounds

/-- The nearest double to a number is the one that it rounds to. -/
theorem nearestBits_of_rounds {m : Nat} {q : Int} (hc : Canonical m q) {num den : Nat} (hnum : 0 < num) (hden : 0 < den)
    (h : Rounds m q (num / den)) : nearestBits num den = (q - minExponent).toNat * 2 ^ 52 + m := by
  obtain ⟨e, r, hfits, hnearest, hbits⟩ := exists_nearestBits hnum hden
  rw [hbits]
  -- a lesser exponent fits only just below a power of two
  rcases (h.exponent_le hc hfits).lt_or_eq with hlt | rfl
  · obtain ⟨rfl, rfl, hpower⟩ := h.below hc hfits hlt
    obtain rfl := hnearest.unique hpower
    have hleast := hfits.least
    omega
  · rw [hnearest.unique h.isNearest]

end Binary64

end ScriptPir.Numeral

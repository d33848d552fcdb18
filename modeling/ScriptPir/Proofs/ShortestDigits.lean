import ScriptPir.Proofs.Rounding

/-!
# The shortest digits

The digits of a double are those of the first grid, of multiples of a power of ten, that has a number in the interval
of all that rounds to the double. The powers go down, so the digits are the fewest that will do. Seventeen digits
always do.

* `contains_interval_iff` — the decimals in the interval of a double are those that round to it;
* `contains_firstGrid` — if one of the grids has a decimal in the interval, one is found;
* `rounds_of_near` — half a unit of the seventeenth digit is less than half the distance of two doubles;
* `rounds_shortest` — the shortest decimal of a double rounds to it.
-/

namespace ScriptPir.Numeral

namespace Binary64

/-- The number that some digits stand for. -/
def Digits.value (d : Digits) : ℚ := d.digits * 10 ^ d.exponent

/-! ## The interval

The bounds of the interval, the double and the denominator are natural numbers, scaled so that half
and quarter units are whole. Each of them is read here as the rational number it stands for. -/

theorem interval_den_pos (m : Nat) (q : Int) : 0 < (interval m q).den := scale_pos 1 (by decide) (2 - q)

/-- A unit of the interval is a quarter of the last place. -/
theorem unit_eq (q : Int) : ((scale 1 1 (2 - q)).1 : ℚ) / (scale 1 1 (2 - q)).2 = 2 ^ q / 4 := by
  rw [scale_eq 1 (by decide), zpow_sub₀ (by norm_num)]
  norm_num

/-- The middle of the interval is the double. -/
theorem interval_value (m : Nat) (q : Int) : ((interval m q).value : ℚ) / (interval m q).den = m * 2 ^ q := by
  show ((4 * m * (scale 1 1 (2 - q)).1 : Nat) : ℚ) / (scale 1 1 (2 - q)).2 = _
  push_cast
  rw [mul_div_assoc, unit_eq]
  ring

/-- The upper bound is half a place above the double. -/
theorem interval_high (m : Nat) (q : Int) :
    ((interval m q).high : ℚ) / (interval m q).den = (m + 1 / 2) * 2 ^ q := by
  show (((4 * m + 2) * (scale 1 1 (2 - q)).1 : Nat) : ℚ) / (scale 1 1 (2 - q)).2 = _
  push_cast
  rw [mul_div_assoc, unit_eq]
  ring

/-- The lower bound is half the distance to the double below. -/
theorem interval_low {m : Nat} (hm : 0 < m) (q : Int) :
    ((interval m q).low : ℚ) / (interval m q).den = (m - gap m q) * 2 ^ q := by
  have hlow : (interval m q).low =
      (if m == Nat.pow 2 52 && decide (minExponent < q) then 4 * m - 1 else 4 * m - 2) * (scale 1 1 (2 - q)).1 := rfl
  simp only [Nat.pow_eq, Bool.and_eq_true, beq_iff_eq, decide_eq_true_eq] at hlow
  have hden : (interval m q).den = (scale 1 1 (2 - q)).2 := rfl
  rw [hlow, hden, Nat.cast_mul, mul_div_assoc, unit_eq, gap]
  split
  · rw [Nat.cast_sub (by omega)]
    push_cast
    ring
  · rw [Nat.cast_sub (by omega)]
    push_cast
    ring

/-- The bounds belong to the interval if the significand is even. -/
theorem interval_closed (m : Nat) (q : Int) : (interval m q).closed = true ↔ Even m := by
  rw [Nat.even_iff]
  exact beq_iff_eq

/-- A decimal times a denominator, as it is written with natural numbers. -/
theorem decimal_eq (c den : Nat) (k : Int) :
    ∃ x s : Nat, 0 < s ∧
      (if 0 ≤ k then (c * Nat.pow 10 k.toNat * den, 1) else (c * den, Nat.pow 10 (-k).toNat)) = (x, s) ∧
        (x : ℚ) = c * 10 ^ k * den * s := by
  split
  · rename_i hk
    obtain ⟨j, rfl⟩ := Int.eq_ofNat_of_zero_le hk
    refine ⟨_, _, Nat.one_pos, rfl, ?_⟩
    simp only [Int.toNat_natCast, Nat.pow_eq, zpow_natCast]
    push_cast
    ring
  · rename_i hk
    obtain ⟨j, hj⟩ := Int.eq_ofNat_of_zero_le (a := -k) (by omega)
    obtain rfl : k = -(j : Int) := by omega
    refine ⟨_, _, Nat.pow_pos (by decide), rfl, ?_⟩
    simp only [neg_neg, Int.toNat_natCast, zpow_neg, zpow_natCast]
    push_cast
    field_simp

/-- A decimal is in an interval if it is between the ends. -/
theorem contains_iff {i : Interval} (hden : 0 < i.den) (c : Nat) (k : Int) :
    i.contains c k = true ↔
      ((i.low : ℚ) / i.den ≤ c * 10 ^ k ∧ (c : ℚ) * 10 ^ k ≤ i.high / i.den) ∧
        (i.closed = false → (i.low : ℚ) / i.den < c * 10 ^ k ∧ (c : ℚ) * 10 ^ k < i.high / i.den) := by
  have hpos : (0 : ℚ) < i.den := by exact_mod_cast hden
  -- both sides are compared over the denominator of the interval times that of the decimal
  obtain ⟨x, s, hs, hpair, hx⟩ := decimal_eq c i.den k
  have hspos : (0 : ℚ) < s := by exact_mod_cast hs
  have hle : ∀ a : Nat, a * s ≤ x ↔ (a : ℚ) / i.den ≤ c * 10 ^ k := by
    intro a
    rw [div_le_iff₀ hpos, ← mul_le_mul_iff_left₀ hspos, ← hx]
    exact_mod_cast Iff.rfl
  have hge : ∀ a : Nat, x ≤ a * s ↔ (c : ℚ) * 10 ^ k ≤ a / i.den := by
    intro a
    rw [le_div_iff₀ hpos, ← mul_le_mul_iff_left₀ hspos, ← hx]
    exact_mod_cast Iff.rfl
  unfold Interval.contains
  rw [hpair]
  simp only
  cases i.closed with
  | true => simp [hle, hge]
  | false =>
    have hlt : ∀ a : Nat, a * s < x ↔ (a : ℚ) / i.den < c * 10 ^ k := by
      intro a
      rw [← not_le, hge, not_le]
    have hgt : ∀ a : Nat, x < a * s ↔ (c : ℚ) * 10 ^ k < a / i.den := by
      intro a
      rw [← not_le, hle, not_le]
    simp only [Bool.false_eq_true, if_false, Bool.and_eq_true, decide_eq_true_eq, hlt, hgt, true_implies]
    exact ⟨fun h => ⟨⟨h.1.le, h.2.le⟩, h⟩, fun h => h.2⟩

/-- The decimals in the interval of a double are those that round to it. -/
theorem contains_interval_iff {m : Nat} (hm : 0 < m) (q : Int) (d : Digits) :
    (interval m q).contains d.digits d.exponent = true ↔ Rounds m q d.value := by
  have hpow : (0 : ℚ) < 2 ^ q := zpow_pos (by norm_num) q
  have hodd : (interval m q).closed = false ↔ ¬ Even m := by
    rw [← interval_closed m q, Bool.not_eq_true]
  rw [contains_iff (interval_den_pos m q), interval_low hm, interval_high, hodd]
  show _ ↔ Rounds m q d.value
  rw [← Digits.value]
  constructor
  · rintro ⟨⟨hlow, hhigh⟩, hstrict⟩
    refine ⟨(le_div_iff₀ hpow).mpr hlow, (div_le_iff₀ hpow).mpr hhigh, fun h => ?_⟩
    exact ⟨(lt_div_iff₀ hpow).mpr (hstrict h).1, (div_lt_iff₀ hpow).mpr (hstrict h).2⟩
  · rintro ⟨hlow, hhigh, hstrict⟩
    refine ⟨⟨(le_div_iff₀ hpow).mp hlow, (div_le_iff₀ hpow).mp hhigh⟩, fun h => ?_⟩
    exact ⟨(lt_div_iff₀ hpow).mp (hstrict h).1, (div_lt_iff₀ hpow).mp (hstrict h).2⟩

/-! ## The grids

The nearest multiple of a power of ten is tried first, then its neighbour on the other side of the
double. If the nearest one is not in the interval, a finer grid is taken. -/

/-- What is found on a grid is on it and in the interval. -/
theorem contains_of_onGrid {i : Interval} {k : Int} {d : Digits} (h : i.onGrid k = some d) :
    i.contains d.digits d.exponent = true := by
  unfold Interval.onGrid at h
  generalize (if 0 ≤ k then _ else _ : Nat × Nat) = p at h
  dsimp only at h
  generalize (if roundDiv p.1 p.2 = p.1 / p.2 then _ else _ : Nat) = other at h
  -- the nearest number is tried first, then the one on the other side
  by_cases hnearest : i.contains (roundDiv p.1 p.2) k = true
  · rw [if_pos hnearest] at h
    cases h
    exact hnearest
  · rw [if_neg hnearest] at h
    by_cases hother : i.contains other k = true
    · rw [if_pos hother] at h
      cases h
      exact hother
    · rw [if_neg hother] at h
      cases h

/-- The multiple of a power of ten that is nearest to a value is found if it is in the interval. -/
theorem isSome_onGrid {i : Interval} (hden : 0 < i.den) (k : Int)
    (h : ∀ c : Nat, |(c : ℚ) * 10 ^ k - i.value / i.den| ≤ 10 ^ k / 2 → i.contains c k = true) :
    (i.onGrid k).isSome = true := by
  have hten : (0 : ℚ) < 10 ^ k := zpow_pos (by norm_num) k
  obtain ⟨n, d, hpair, hd, hscaled⟩ := shifted_eq 10 (by decide) i.value hden k
  -- the nearest number on the grid is off by half a step at most
  have hnear : i.contains (roundDiv n d) k = true := by
    apply h
    have hround := isNearest_roundDiv n hd
    have hvalue : (i.value : ℚ) / i.den = n / d * 10 ^ k := by
      rw [hscaled]
      push_cast
      field_simp
    have hbound : |(roundDiv n d : ℚ) - n / d| ≤ 1 / 2 := by
      rw [abs_le]
      constructor <;> linarith [hround.low, hround.high]
    calc |(roundDiv n d : ℚ) * 10 ^ k - i.value / i.den| = |(roundDiv n d : ℚ) - n / d| * 10 ^ k := by
          rw [hvalue, ← sub_mul, abs_mul, abs_of_pos hten]
      _ ≤ 1 / 2 * 10 ^ k := mul_le_mul_of_nonneg_right hbound hten.le
      _ = 10 ^ k / 2 := by ring
  unfold Interval.onGrid
  rw [hpair]
  simp only [hnear, if_true, Option.isSome_some]

/-- If one of the grids has a decimal in the interval, so does the first of them that has one. -/
theorem contains_firstGrid {i : Interval} {tries j : Nat} (hj : j < tries) {k : Int}
    (h : (i.onGrid (k - j)).isSome = true) :
    i.contains (i.firstGrid tries k).digits (i.firstGrid tries k).exponent = true := by
  induction tries generalizing j k with
  | zero => exact absurd hj (Nat.not_lt_zero _)
  | succ tries ih =>
    unfold Interval.firstGrid
    cases hgrid : i.onGrid k with
    | some d => exact contains_of_onGrid hgrid
    | none =>
      -- the grid that works is a finer one
      obtain ⟨j, rfl⟩ : ∃ j', j = j' + 1 := by
        cases j with
        | zero =>
          rw [Nat.cast_zero, sub_zero, hgrid] at h
          cases h
        | succ j => exact ⟨j, rfl⟩
      have hshift : k - ((j + 1 : Nat) : Int) = k - 1 - j := by
        push_cast
        ring
      rw [hshift] at h
      exact ih (by omega) h

/-! ## The coarsest grid

The search starts with the power of ten of the first digit. Sixteen powers below it the grid is fine
enough for every double, so the search ends in time. -/

/-- With the zeros that are counted a number is not smaller than the denominator. -/
theorem leadingZeros_spec {den fuel num : Nat} (h : den ≤ num * 10 ^ fuel) :
    den ≤ num * 10 ^ leadingZeros den fuel num := by
  induction fuel generalizing num with
  | zero => exact h
  | succ fuel ih =>
    unfold leadingZeros
    split
    · rwa [pow_zero, mul_one]
    · have hten : den ≤ num * 10 * 10 ^ fuel := by rwa [mul_assoc, ← pow_succ']
      rw [pow_succ', ← mul_assoc]
      exact ih hten

/-- The first digit of a number is not zero. -/
theorem pow_decimalExponent_le {num den : Nat} (hden : 0 < den) (h : den ≤ num * 10 ^ 400) :
    (10 : ℚ) ^ (decimalExponent num den - 1) ≤ num / den := by
  have hpos : (0 : ℚ) < den := by exact_mod_cast hden
  unfold decimalExponent
  split
  · rename_i hle
    -- above one the digits in front of the point are counted, below it the zeros behind
    obtain ⟨l, hl⟩ : ∃ l, (Nat.toDigits 10 (num / den)).length = l + 1 :=
      ⟨_, (Nat.succ_pred_eq_of_pos Nat.length_toDigits_pos).symm⟩
    have hpow : 10 ^ l ≤ num / den := by
      cases l with
      | zero => exact Nat.div_pos hle hden
      | succ l =>
        by_contra hlt
        have hshort := (Nat.length_toDigits_le_iff (b := 10) (by decide) (Nat.succ_pos l)).mpr (Nat.lt_of_not_le hlt)
        omega
    rw [hl, Nat.cast_succ, add_sub_cancel_right, zpow_natCast]
    have hcast := (le_div_iff_cast hden).mp hpow
    exact_mod_cast hcast
  · have hzeros : den ≤ num * 10 ^ leadingZeros den 400 num := leadingZeros_spec h
    have hq : (den : ℚ) ≤ num * 10 ^ leadingZeros den 400 num := by exact_mod_cast hzeros
    have hexponent : (1 : Int) - leadingZeros den 400 num - 1 = -(leadingZeros den 400 num : Int) := by ring
    rw [hexponent, zpow_neg, zpow_natCast, le_div_iff₀ hpos, inv_mul_le_iff₀ (by positivity), mul_comm]
    exact hq

/-- No double is so small that its first digit is beyond four hundred places. -/
theorem one_le_scaled {m : Nat} {q : Int} (hc : Canonical m q) : (1 : ℚ) ≤ m * 2 ^ q * 10 ^ 400 := by
  have hm : (1 : ℚ) ≤ m := by exact_mod_cast hc.pos
  have hpow : (2 : ℚ) ^ (-1074 : Int) ≤ 2 ^ q := zpow_le_zpow_right₀ (by norm_num) hc.least
  have hten : (2 : ℚ) ^ 1074 ≤ 10 ^ 400 := by
    calc (2 : ℚ) ^ 1074 = (2 ^ 3) ^ 358 := pow_mul 2 3 358
      _ ≤ 10 ^ 358 := pow_le_pow_left₀ (by norm_num) (by norm_num) _
      _ ≤ 10 ^ 400 := pow_le_pow_right₀ (by norm_num) (by norm_num)
  have hunit : (2 : ℚ) ^ (-1074 : Int) * 2 ^ 1074 = 1 := by
    rw [zpow_neg]
    exact inv_mul_cancel₀ (by positivity)
  calc (1 : ℚ) = 1 * 2 ^ (-1074 : Int) * 2 ^ 1074 := by rw [one_mul, hunit]
    _ ≤ m * 2 ^ q * 10 ^ 400 := by gcongr

/-- Seventeen digits tell doubles apart: what is off by half a unit of the seventeenth one still rounds. -/
theorem rounds_of_near {m : Nat} {q : Int} (hc : Canonical m q) {v : ℚ}
    (h : |v - m * 2 ^ q| ≤ m * 2 ^ q / (2 * 10 ^ 16)) : Rounds m q v := by
  have hpow : (0 : ℚ) < 2 ^ q := zpow_pos (by norm_num) q
  have hmlt : (m : ℚ) < 2 ^ 53 := by exact_mod_cast hc.lt
  -- in units of the last place
  have hfar : |v / 2 ^ q - m| ≤ m / (2 * 10 ^ 16) := by
    have hsplit : v / 2 ^ q - m = (v - m * 2 ^ q) / 2 ^ q := by field_simp
    rw [hsplit, abs_div, abs_of_pos hpow, div_le_iff₀ hpow]
    calc |v - m * 2 ^ q| ≤ m * 2 ^ q / (2 * 10 ^ 16) := h
      _ = m / (2 * 10 ^ 16) * 2 ^ q := by ring
  -- sixteen digits are more than 53 bits, so this is less than half a unit
  have hgap : (m : ℚ) / (2 * 10 ^ 16) < gap m q := by
    unfold gap
    split
    · rename_i hpower
      rw [hpower.1]
      norm_num
    · rw [div_lt_iff₀ (by norm_num)]
      linarith
  obtain ⟨hlow, hhigh⟩ := abs_le.mp hfar
  have hhalf := gap_le_half m q
  have hstrict : (m : ℚ) - gap m q < v / 2 ^ q ∧ v / 2 ^ q < m + 1 / 2 := by
    constructor <;> linarith
  exact ⟨hstrict.1.le, hstrict.2.le, fun _ => hstrict⟩

/-- The shortest decimal of a double rounds to it. -/
theorem rounds_shortest {m : Nat} {q : Int} (hc : Canonical m q) : Rounds m q (shortest m q).value := by
  have hden := interval_den_pos m q
  have hdenq : (0 : ℚ) < (interval m q).den := by exact_mod_cast hden
  have hvalue := interval_value m q
  set k : Int := decimalExponent (interval m q).value (interval m q).den - 1 with hk
  have hsmall : (interval m q).den ≤ (interval m q).value * 10 ^ 400 := by
    have hone := one_le_scaled hc
    rw [← hvalue, div_mul_eq_mul_div, le_div_iff₀ hdenq, one_mul] at hone
    exact_mod_cast hone
  have hfirst : (10 : ℚ) ^ k ≤ m * 2 ^ q := by
    rw [← hvalue]
    exact pow_decimalExponent_le hden hsmall
  rw [← contains_interval_iff hc.pos]
  -- sixteen digits behind the first are enough
  apply contains_firstGrid (j := 16) (by decide)
  apply isSome_onGrid hden
  intro c hnear
  apply (contains_interval_iff hc.pos q ⟨c, k - 16⟩).mpr
  apply rounds_of_near hc
  have hgrid : (10 : ℚ) ^ (k - 16) = 10 ^ k / 10 ^ 16 := by
    rw [zpow_sub₀ (by norm_num)]
    norm_num
  rw [hvalue] at hnear
  calc |(⟨c, k - 16⟩ : Digits).value - m * 2 ^ q| ≤ 10 ^ (k - 16) / 2 := hnear
    _ = 10 ^ k / (2 * 10 ^ 16) := by rw [hgrid]; ring
    _ ≤ m * 2 ^ q / (2 * 10 ^ 16) := by gcongr

end Binary64

end ScriptPir.Numeral

import ScriptPir.Proofs.PointedDecimals

/-!
# Doubles are read back

The text of a finite double that is not negative is a decimal that rounds to it, so reading the text gives the double.

* `ofFloat_eq_finite` — such a double is taken apart into a number that its bits spell;
* `readFloat_ofFloat` — the text of a double is read as the double.

The text of a double is written by an algorithm of its own (`ShortestDigits`), and read by another one
(`Rounding`). They have nothing in common but the number between them: the shortest digits are near
enough to the double to be rounded to it, and reading rounds correctly.
-/

namespace ScriptPir.Numeral

namespace Binary64

/-- A double that is not negative is taken apart into a number that its bits spell. -/
theorem ofFloat_eq_finite {x : Float} (hfinite : x.isFinite = true) (hsign : x.toBits.toNat < 2 ^ 63) :
    ∃ m q, ofFloat x = finite false m q ∧ (m = 0 ∧ q = minExponent ∨ Canonical m q) ∧
      x.toBits.toNat = (q - minExponent).toNat * 2 ^ 52 + m := by
  have hexponent := (exponentOf_eq_iff x.toBits).not.mp ((isFinite_iff x).mp hfinite)
  unfold ofFloat ofBits
  generalize x.toBits.toNat = n at hsign hexponent
  have hnegative : (n / Nat.pow 2 63 == 1) = false := by
    simp only [Nat.pow_eq, beq_eq_false_iff_ne]
    omega
  simp only [Nat.pow_eq, hnegative, beq_iff_eq, if_neg hexponent]
  -- an exponent of zero has no hidden bit, and its fraction may be zero
  split
  · rename_i hzero
    refine ⟨n % 2 ^ 52, minExponent, rfl, ?_, by simp; omega⟩
    by_cases hm : n % 2 ^ 52 = 0
    · exact .inl ⟨hm, rfl⟩
    · exact .inr ⟨Nat.pos_of_ne_zero hm, by omega, le_refl _, fun h => absurd h (lt_irrefl _)⟩
  · rename_i hnormal
    refine ⟨_, _, rfl, .inr ⟨by omega, by omega, ?_, fun _ => by omega⟩, ?_⟩
    · omega
    · rw [add_sub_cancel_right]
      omega

/-- The bits of a double that is finite and not negative are below those of infinity. -/
theorem toBits_lt_infinityBits {x : Float} (hfinite : x.isFinite = true) (hsign : x.toBits.toNat < 2 ^ 63) :
    x.toBits.toNat < infinityBits := by
  have hexponent := (exponentOf_eq_iff x.toBits).not.mp ((isFinite_iff x).mp hfinite)
  have hinfinity : infinityBits = 2047 * 2 ^ 52 := rfl
  omega

/-- The bits of a double make the double. -/
theorem withSign_toBits {x : Float} (hfinite : x.isFinite = true) : withSign false x.toBits.toNat = x := by
  apply Float.toBits_inj.mp
  show (Float.ofBits (UInt64.ofNat x.toBits.toNat)).toBits = x.toBits
  rw [UInt64.ofNat_toNat, toBits_ofBits ((isFinite_iff x).mp hfinite)]

end Binary64

open Binary64

/-- The text of a double that is finite and not negative is a decimal that rounds to it. -/
theorem exists_pointed_ofFloat {x : Float} (hfinite : x.isFinite = true) (hsign : x.toBits.toNat < 2 ^ 63) :
    ∃ whole fraction v, Pointed (ofFloat x).toList whole fraction v ∧
      ∀ num den : Nat, 0 < den → (num : ℚ) / den = v → nearestBits num den = x.toBits.toNat := by
  obtain ⟨m, q, hx, hm, hbits⟩ := ofFloat_eq_finite hfinite hsign
  rw [hbits]
  unfold ofFloat
  rw [hx]
  -- zero is written without digits of its own
  obtain ⟨rfl, rfl⟩ | hcanonical := hm
  · refine ⟨['0'], ['0'], 0, ⟨rfl, isRun_zero, isRun_zero, by norm_num [Nat.ofDigitChars]⟩, fun num den hden hnum => ?_⟩
    have hden' : (den : ℚ) ≠ 0 := by exact_mod_cast hden.ne'
    have hnum' : num = 0 := by
      rw [div_eq_zero_iff, or_iff_left hden'] at hnum
      exact_mod_cast hnum
    rw [hnum', nearestBits, if_pos rfl]
    rfl
  · have hrounds := rounds_shortest hcanonical
    have hvalue : 0 < (shortest m q).value := hrounds.pos hcanonical.pos
    have hdigits : 0 < (shortest m q).digits := by
      apply Nat.pos_of_ne_zero
      intro hzero
      rw [Digits.value, hzero, Nat.cast_zero, zero_mul] at hvalue
      exact lt_irrefl _ hvalue
    obtain ⟨whole, fraction, hpointed⟩ := exists_pointed_toPointed hdigits
    -- a number that is not zero is written with its shortest digits
    have htext : (toText (finite false m q)).toList =
        positional (shortest m q).toPointed.1 (shortest m q).toPointed.2 := by
      show (if m = 0 then "0.0" else String.ofList _).toList = _
      rw [if_neg hcanonical.pos.ne', String.toList_ofList]
      rfl
    refine ⟨whole, fraction, _, htext ▸ hpointed, fun num den hden hnum => ?_⟩
    have hpos : 0 < num := by
      apply Nat.pos_of_ne_zero
      rintro rfl
      rw [Nat.cast_zero, zero_div] at hnum
      exact hvalue.ne hnum
    exact nearestBits_of_rounds hcanonical hpos hden (hnum ▸ hrounds)

/-- The text of a double is read as the double. -/
theorem readFloat_ofFloat {x : Float} (hfinite : x.isFinite = true) (hsign : x.toBits.toNat < 2 ^ 63) :
    readFloat (ofFloat x).toList = .ok x := by
  obtain ⟨whole, fraction, v, hpointed, hnearest⟩ := exists_pointed_ofFloat hfinite hsign
  have hlength : 0 < fraction.length := List.length_pos_iff.mpr hpointed.fraction_digits.ne_nil
  have hbits : nearestBits (Nat.ofDigitChars 10 (whole ++ fraction) 0) (10 ^ fraction.length) = x.toBits.toNat := by
    apply hnearest _ _ (Nat.pow_pos (by decide))
    rw [← hpointed.value]
    push_cast
    rfl
  have hinfinity : ¬ infinityBits ≤ x.toBits.toNat := Nat.not_le_of_lt (toBits_lt_infinityBits hfinite hsign)
  rw [readFloat_pointed hpointed, nearestPower_places _ hlength, hbits, if_neg hinfinity, withSign_toBits hfinite]

end ScriptPir.Numeral

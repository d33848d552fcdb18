import ScriptPir.Proofs.Doubles
import ScriptPir.Proofs.ShortestDigits
import ScriptPir.Proofs.Spelling

/-!
# Decimals with a point

The digits of a double are written with a point among them and with zeros that the point needs, never with an
exponent. Such a text is read as the number of all its digits over a power of ten.

* `exists_pointed_toPointed` — the text of some digits has digits on both sides of a point, and stands for their
  number;
* `readFloat_pointed` — such a text is read as the double nearest to its number.

Positional notation has three cases, by where the point falls: in front of all digits, behind them, or
among them. In the first two, zeros fill the gap, and they change neither the number nor how it is read.
-/

namespace ScriptPir.Numeral

/-! ## Digits

Digits are read by two functions, one for integers and one for the parts of a float. On decimal
digits they are the same. -/

theorem isDigit_of_mem_toDigits {n : Nat} {c : Char} (h : c ∈ Nat.toDigits 10 n) : Lexer.isDigit c = true := by
  have hdigit := Nat.isDigit_of_mem_toDigits (by decide) (by decide) h
  simpa [Char.isDigit, Lexer.isDigit, Char.le_def] using hdigit

/-- A decimal digit has the value of its place behind zero. -/
theorem digitValue?_of_isDigit {c : Char} (h : Lexer.isDigit c = true) :
    digitValue? c = some (c.toNat - '0'.toNat) ∧ c.toNat - '0'.toNat < 10 := by
  simp only [Lexer.isDigit, Bool.and_eq_true, decide_eq_true_eq] at h
  refine ⟨if_pos h, ?_⟩
  have hle : c.toNat ≤ '9'.toNat := h.2
  have h9 : '9'.toNat = 57 := rfl
  have h0 : '0'.toNat = 48 := rfl
  omega

/-- Decimal digits are read as their number. -/
theorem foldl_digitValue {ds : List Char} (h : ∀ c ∈ ds, Lexer.isDigit c = true) (n : Nat) :
    ds.foldl (fun n c => n * 10 + (digitValue? c).getD 0) n = Nat.ofDigitChars 10 ds n := by
  induction ds generalizing n with
  | nil => rfl
  | cons c ds ih =>
    rw [List.forall_mem_cons] at h
    rw [List.foldl_cons, ih h.2, Nat.ofDigitChars_cons, (digitValue?_of_isDigit h.1).1, Option.getD_some,
      Nat.mul_comm]

/-- A decimal with a point is read as the number of all its digits and the count of those behind the point. -/
theorem readFraction_pointed {whole fraction : List Char} (hwhole : ∀ c ∈ whole, Lexer.isDigit c = true)
    (hne : whole ≠ []) (hfraction : ∀ c ∈ fraction, Lexer.isDigit c = true) :
    readFraction 10 (whole ++ '.' :: fraction) =
      .ok (⟨Nat.ofDigitChars 10 (whole ++ fraction) 0, fraction.length⟩, []) := by
  have hall : ∀ c ∈ whole ++ fraction, Lexer.isDigit c = true := by
    intro c hc
    exact (List.mem_append.mp hc).elim (hwhole c) (hfraction c)
  unfold readFraction
  extract_lets p value front
  have hdigit : ∀ c, Lexer.isDigit c = true → p c = true := by
    intro c hc
    obtain ⟨hvalue, hlt⟩ := digitValue?_of_isDigit hc
    simp only [p, hvalue]
    exact decide_eq_true hlt
  have hpoint : p '.' = false := rfl
  -- the digits end at the point, and begin again behind it
  have hfront : (whole ++ '.' :: fraction).takeWhile p = whole ∧
      (whole ++ '.' :: fraction).dropWhile p = '.' :: fraction := by
    have hp := fun c hc => hdigit c (hwhole c hc)
    rw [List.takeWhile_append_of_pos hp, List.dropWhile_append_of_pos hp]
    simp [hpoint]
  have hback : fraction.takeWhile p = fraction ∧ fraction.dropWhile p = [] := by
    have hp := fun c hc => hdigit c (hfraction c hc)
    exact ⟨List.takeWhile_eq_self_iff.mpr hp, List.dropWhile_eq_nil_iff.mpr hp⟩
  simp only [front, value, hfront.1, hfront.2, hback.1, hback.2, foldl_digitValue hall, hne, false_and, if_false]

/-! ## Positional notation

The point is in front of all digits, behind them, or between two of them; in the first two cases
zeros stand in between. -/

namespace Binary64

/-- A text has digits on both sides of a point, and all of them, divided by a power of ten for those behind the point,
are a number. -/
structure Pointed (s whole fraction : List Char) (v : ℚ) : Prop where
  text : s = whole ++ '.' :: fraction
  whole_digits : IsRun Lexer.isDigit whole
  fraction_digits : IsRun Lexer.isDigit fraction
  value : (Nat.ofDigitChars 10 (whole ++ fraction) 0 : ℚ) / 10 ^ fraction.length = v

/-- A zero is a run of digits. -/
theorem isRun_zero : IsRun Lexer.isDigit ['0'] := by
  refine ⟨List.cons_ne_nil _ _, fun c hc => ?_⟩
  rw [List.mem_singleton.mp hc]
  rfl

/-- A run of digits stays one with zeros in front or behind. -/
theorem isRun_zeros {n : Nat} {s : List Char} (hs : IsRun Lexer.isDigit s) :
    IsRun Lexer.isDigit (List.replicate n '0' ++ s) ∧ IsRun Lexer.isDigit (s ++ List.replicate n '0') := by
  have hzero : ∀ c ∈ List.replicate n '0', Lexer.isDigit c = true := by
    intro c hc
    rw [List.eq_of_mem_replicate hc]
    rfl
  refine ⟨⟨by simp [hs.ne_nil], fun c hc => ?_⟩, ⟨by simp [hs.ne_nil], fun c hc => ?_⟩⟩
  · exact (List.mem_append.mp hc).elim (hzero c) (hs.all c)
  · exact (List.mem_append.mp hc).elim (hs.all c) (hzero c)

theorem ofDigitChars_zeros_append (n : Nat) (s : List Char) :
    Nat.ofDigitChars 10 (List.replicate n '0' ++ s) 0 = Nat.ofDigitChars 10 s 0 := by
  rw [Nat.ofDigitChars_append, Nat.ofDigitChars_replicate_zero, Nat.mul_zero]

theorem ofDigitChars_append_zeros (s : List Char) (n : Nat) :
    Nat.ofDigitChars 10 (s ++ List.replicate n '0') 0 = 10 ^ n * Nat.ofDigitChars 10 s 0 := by
  rw [Nat.ofDigitChars_append, Nat.ofDigitChars_replicate_zero]

/-- Digits with a point among them stand for their number, shifted by the place of the point. -/
theorem exists_pointed_positional {digits : List Char} (h : IsRun Lexer.isDigit digits) (point : Int) :
    ∃ whole fraction, Pointed (positional digits point) whole fraction
      (Nat.ofDigitChars 10 digits 0 * 10 ^ (point - digits.length)) := by
  have hten : (10 : ℚ) ≠ 0 := by norm_num
  unfold positional
  split
  · -- zeros come between the point and the digits
    rename_i hpoint
    obtain ⟨n, hn⟩ := Int.eq_ofNat_of_zero_le (a := -point) (by omega)
    refine ⟨['0'], List.replicate n '0' ++ digits, by simp [hn], isRun_zero, (isRun_zeros h).1, ?_⟩
    have hall : ['0'] ++ (List.replicate n '0' ++ digits) = List.replicate (n + 1) '0' ++ digits := by
      rw [List.replicate_succ]
      rfl
    have hexponent : point - digits.length = -((n + digits.length : Nat) : Int) := by
      push_cast
      omega
    rw [hall, ofDigitChars_zeros_append, List.length_append, List.length_replicate, hexponent, zpow_neg,
      zpow_natCast, div_eq_mul_inv]
  · split
    · -- zeros come between the digits and the point
      rename_i hpoint hlong
      obtain ⟨n, hn⟩ := Int.eq_ofNat_of_zero_le (a := point - digits.length) (by omega)
      have hcount : point.toNat - digits.length = n := by omega
      refine ⟨digits ++ List.replicate n '0', ['0'], by rw [hcount], (isRun_zeros h).2, isRun_zero, ?_⟩
      have hall : digits ++ List.replicate n '0' ++ ['0'] = digits ++ List.replicate (n + 1) '0' := by
        rw [List.append_assoc, List.replicate_succ']
      rw [hall, ofDigitChars_append_zeros, hn]
      push_cast
      rw [zpow_natCast, pow_succ, List.length_singleton]
      field_simp
    · -- the point is between two of the digits
      rename_i hpoint hshort
      obtain ⟨n, rfl⟩ := Int.eq_ofNat_of_zero_le (a := point) (by omega)
      rw [Int.toNat_natCast]
      have hlt : n < digits.length := by omega
      refine ⟨digits.take n, digits.drop n, rfl, ⟨?_, fun c hc => h.all c (List.mem_of_mem_take hc)⟩,
        ⟨?_, fun c hc => h.all c (List.mem_of_mem_drop hc)⟩, ?_⟩
      · apply List.ne_nil_of_length_pos
        rw [List.length_take]
        omega
      · apply List.ne_nil_of_length_pos
        rw [List.length_drop]
        omega
      · have hexponent : (n : Int) - digits.length = -((digits.length - n : Nat) : Int) := by
          push_cast [Nat.cast_sub hlt.le]
          ring
        rw [List.take_append_drop, List.length_drop, hexponent, zpow_neg, zpow_natCast, div_eq_mul_inv]

/-- Zeros at the end of a decimal do not count. -/
theorem exists_pointed_toPointed {d : Digits} (hpos : 0 < d.digits) :
    ∃ whole fraction, Pointed (positional d.toPointed.1 d.toPointed.2) whole fraction d.value := by
  have hten : (10 : ℚ) ≠ 0 := by norm_num
  have hsplit := List.takeWhile_append_dropWhile (p := fun c => decide (c = '0')) (l := (Nat.toDigits 10 d.digits).reverse)
  have hzeros : (Nat.toDigits 10 d.digits).reverse.takeWhile (fun c => decide (c = '0')) =
      List.replicate ((Nat.toDigits 10 d.digits).reverse.takeWhile (fun c => decide (c = '0'))).length '0' :=
    List.eq_replicate_of_mem fun c hc => by simpa using List.mem_takeWhile_imp hc
  generalize ((Nat.toDigits 10 d.digits).reverse.takeWhile (fun c => decide (c = '0'))).length = n at hzeros
  set digits := ((Nat.toDigits 10 d.digits).reverse.dropWhile (fun c => decide (c = '0'))).reverse with hdigits
  -- without the zeros at the end: the digits of the decimal, with some power of ten
  have hall : Nat.toDigits 10 d.digits = digits ++ List.replicate n '0' := by
    rw [hzeros] at hsplit
    have hreverse := congrArg List.reverse hsplit
    rw [List.reverse_append, List.reverse_reverse, List.reverse_replicate] at hreverse
    exact hreverse.symm
  have hnumber : d.digits = 10 ^ n * Nat.ofDigitChars 10 digits 0 := by
    rw [← ofDigitChars_append_zeros, ← hall, Nat.ofDigitChars_ten_toDigits]
  -- if there were no digits but zeros, the number would be zero
  have hrun : IsRun Lexer.isDigit digits := by
    refine ⟨fun hnil => ?_, fun c hc => isDigit_of_mem_toDigits (n := d.digits) ?_⟩
    · rw [hnil, Nat.ofDigitChars_nil, Nat.mul_zero] at hnumber
      omega
    · rw [hall]
      exact List.mem_append_left _ hc
  obtain ⟨whole, fraction, hpointed⟩ := exists_pointed_positional hrun d.toPointed.2
  refine ⟨whole, fraction, hpointed.text, hpointed.whole_digits, hpointed.fraction_digits, ?_⟩
  have hpoint : d.toPointed.2 - digits.length = n + d.exponent := by
    show ((Nat.toDigits 10 d.digits).length : Int) + d.exponent - digits.length = n + d.exponent
    rw [hall, List.length_append, List.length_replicate]
    push_cast
    ring
  rw [hpointed.value, hpoint, Digits.value, hnumber, zpow_add₀ hten, zpow_natCast]
  push_cast
  ring

end Binary64

/-! ## Reading

A decimal is read as a number over a power of ten, which is rounded once. -/

open Binary64 Lexer

/-- A decimal with a point is read as the double nearest to it. -/
theorem readFloat_pointed {s whole fraction : List Char} {v : ℚ} (h : Pointed s whole fraction v) :
    readFloat s = nearestPower false (Nat.ofDigitChars 10 (whole ++ fraction) 0) 10 (-fraction.length) := by
  obtain ⟨c, rest, hwhole⟩ := List.exists_cons_of_ne_nil h.whole_digits.ne_nil
  have hc : Lexer.isDigit c = true := h.whole_digits.all c (by rw [hwhole]; exact List.mem_cons_self)
  have hfraction := readFraction_pointed h.whole_digits.all h.whole_digits.ne_nil h.fraction_digits.all
  have htext : s = c :: (rest ++ '.' :: fraction) := by rw [h.text, hwhole, List.cons_append]
  have hdecimal : readDecimalFloat false s =
      nearestPower false (Nat.ofDigitChars 10 (whole ++ fraction) 0) 10 (-fraction.length) := by
    rw [h.text, readDecimalFloat, hfraction]
    show nearestPower false _ 10 (0 - fraction.length) = _
    rw [zero_sub]
  -- neither a sign nor the mark of a hexadecimal number is there
  have hsecond : ∀ d ∈ (rest ++ '.' :: fraction).head?, d ≠ 'x' ∧ d ≠ 'X' := by
    intro d hd
    cases rest with
    | nil =>
      cases hd
      decide
    | cons e rest =>
      cases hd
      have he := h.whole_digits.all d (by rw [hwhole]; simp)
      exact ⟨ne_of_class he (by decide), ne_of_class he (by decide)⟩
  have hunsigned : readUnsignedFloat false s = readDecimalFloat false s := by
    unfold readUnsignedFloat
    split
    · exact absurd rfl (hsecond 'x' (by rw [← (List.cons.inj htext).2]; rfl)).1
    · exact absurd rfl (hsecond 'X' (by rw [← (List.cons.inj htext).2]; rfl)).2
    · rfl
  have hspecial : specialFloat? s = none := by
    rw [htext]
    exact specialFloat?_of_digit (by simpa [Lexer.isDigit] using hc) _
  unfold readFloat
  rw [hspecial]
  dsimp only
  split
  · rw [← (List.cons.inj htext).1] at hc
    cases hc
  · rw [← (List.cons.inj htext).1] at hc
    cases hc
  · rw [hunsigned, hdecimal]

/-- A decimal with a point has the double nearest to it for a value, if there is one. -/
theorem nearestPower_places (mantissa : Nat) {places : Nat} (h : 0 < places) :
    nearestPower false mantissa 10 (-places) =
      if infinityBits ≤ nearestBits mantissa (10 ^ places) then .error .outOfRange
      else .ok (withSign false (nearestBits mantissa (10 ^ places))) := by
  have hneg : ¬ (0 : Int) ≤ -places := by omega
  unfold nearestPower
  simp only [if_neg hneg, neg_neg, Int.toNat_natCast, Nat.pow_eq]

end ScriptPir.Numeral

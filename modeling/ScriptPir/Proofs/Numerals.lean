import ScriptPir.Proofs.Labelling
import ScriptPir.Proofs.RenderedConstants

/-!
# Numerals of words

An integer has one canonical numeral: its digits without zeros in front, behind a minus sign if it is negative. A word
is written as its canonical numeral, for which the buffer always has room: nineteen digits and a sign fill it. Only the
least word has no such text, since its magnitude is no word.

* `isNumeral_iff` — the canonical numerals are those that integers are written as;
* `exists_putDigits?` — a number below `10 ^ m` takes at most `m` places, and its digits stand before what was there;
* `exists_ofWord?` — the buffer has room for the numeral of every word;
* `ofWord_exact` — every word but the least is written as its canonical numeral, and words, labels and registers that
  differ have different names.
-/

namespace ScriptPir

namespace Numeral

/-! ## Canonical numerals

The specification is a predicate on texts, apart from the writer: a run of digits, read from left to
right, with no zero in front and a sign only for negative numbers. -/

/-- Digits of a number without a zero in front, unless it is the only digit. -/
structure IsUnsigned (s : List Char) (n : Nat) : Prop where
  digits : IsRun Lexer.isDigit s
  leading : s.head? = some '0' → s = ['0']
  value : Nat.ofDigitChars 10 s 0 = n

/-- The canonical decimal numerals of an integer. Zero has no sign. -/
inductive IsNumeral : List Char → Int → Prop where
  | unsigned {s : List Char} {n : Nat} (h : IsUnsigned s n) : IsNumeral s n
  | negative {s : List Char} {n : Nat} (h : IsUnsigned s n) (hpos : 0 < n) : IsNumeral ('-' :: s) (-n)

/-- Only the digits of zero begin with a zero. -/
theorem head?_toDigits {n : Nat} (h : (Nat.toDigits 10 n).head? = some '0') : n = 0 := by
  induction n using Nat.strong_induction_on with
  | h n ih =>
    by_cases hlt : n < 10
    · rw [Nat.toDigits_of_lt_base hlt, List.head?_singleton, Option.some_inj, Nat.digitChar_eq_zero] at h
      exact h
    · -- the first digit is that of a tenth
      rw [Nat.toDigits_of_base_le (by decide) (by omega), List.head?_append_of_ne_nil _ Nat.toDigits_ne_nil] at h
      have htenth := ih (n / 10) (by omega) h
      omega

/-- The digits of a number are canonical. -/
theorem isUnsigned_toDigits (n : Nat) : IsUnsigned (Nat.toDigits 10 n) n := by
  refine ⟨⟨Nat.toDigits_ne_nil, fun c => isDigit_of_mem_toDigits⟩, fun h => ?_, Nat.ofDigitChars_ten_toDigits⟩
  rw [head?_toDigits h]
  rfl

/-- A digit is the character of its value. -/
theorem digitChar_of_isDigit {c : Char} (h : Lexer.isDigit c = true) : (c.toNat - '0'.toNat).digitChar = c := by
  obtain ⟨hlow, hhigh⟩ : '0' ≤ c ∧ c ≤ '9' := by simpa [Lexer.isDigit] using h
  have hlow : 48 ≤ c.toNat := hlow
  have hhigh : c.toNat ≤ 57 := hhigh
  have hzero : '0'.toNat = 48 := rfl
  apply Char.toNat_inj.mp
  rw [Nat.toNat_digitChar_of_lt_ten (by omega)]
  omega

/-- Digits behind those of a positive number are all digits of what they are read as. -/
theorem toDigits_ofDigitChars {cs : List Char} (h : ∀ c ∈ cs, Lexer.isDigit c = true) {n : Nat} (hn : 0 < n) :
    Nat.toDigits 10 (Nat.ofDigitChars 10 cs n) = Nat.toDigits 10 n ++ cs := by
  induction cs generalizing n with
  | nil => rw [Nat.ofDigitChars_nil, List.append_nil]
  | cons c cs ih =>
    rw [List.forall_mem_cons] at h
    have hlt := (digitValue?_of_isDigit h.1).2
    calc Nat.toDigits 10 (Nat.ofDigitChars 10 (c :: cs) n)
        = Nat.toDigits 10 (10 * n + (c.toNat - '0'.toNat)) ++ cs := by
          rw [Nat.ofDigitChars_cons, ih h.2 (by omega)]
      _ = Nat.toDigits 10 n ++ Nat.toDigits 10 (c.toNat - '0'.toNat) ++ cs := by
          rw [Nat.toDigits_append_toDigits (by decide) hn hlt]
      _ = Nat.toDigits 10 n ++ c :: cs := by
          rw [Nat.toDigits_of_lt_base hlt, digitChar_of_isDigit h.1, List.append_assoc, List.singleton_append]

/-- A number has no other canonical digits. -/
theorem IsUnsigned.eq_toDigits {s : List Char} {n : Nat} (h : IsUnsigned s n) : s = Nat.toDigits 10 n := by
  obtain ⟨c, cs, rfl⟩ := List.exists_cons_of_ne_nil h.digits.ne_nil
  by_cases hzero : c = '0'
  · have hs := h.leading (by rw [hzero]; rfl)
    rw [← h.value, hs]
    rfl
  · have hdigits := List.forall_mem_cons.mp h.digits.all
    have hchar := digitChar_of_isDigit hdigits.1
    have hlt := (digitValue?_of_isDigit hdigits.1).2
    -- the first digit is the number that the others are read onto
    have hpos : 0 < c.toNat - '0'.toNat := by
      rw [Nat.pos_iff_ne_zero]
      intro h0
      rw [h0] at hchar
      exact hzero hchar.symm
    rw [← h.value, Nat.ofDigitChars_cons, Nat.mul_zero, Nat.zero_add, toDigits_ofDigitChars hdigits.2 hpos,
      Nat.toDigits_of_lt_base hlt, hchar, List.singleton_append]

theorem toList_ofNat (n : Nat) : (ofNat n).toList = Nat.toDigits 10 n := String.toList_ofList

theorem toList_ofInt_natCast (n : Nat) : (ofInt n).toList = Nat.toDigits 10 n := by
  rw [ofInt, if_neg (by omega), Int.natAbs_natCast, toList_ofNat]

/-- A negative integer is written as the digits of its magnitude behind a minus sign. -/
theorem toList_ofInt_neg {n : Nat} (h : 0 < n) : (ofInt (-n)).toList = '-' :: Nat.toDigits 10 n := by
  rw [ofInt, if_pos (by omega), Int.natAbs_neg, Int.natAbs_natCast, String.toList_append, toList_ofNat]
  rfl

/-- An integer is written as its canonical numeral, which is the only one. -/
theorem isNumeral_iff {s : List Char} {z : Int} : IsNumeral s z ↔ s = (ofInt z).toList := by
  constructor
  · rintro (h | ⟨h, hpos⟩)
    · rw [toList_ofInt_natCast]
      exact h.eq_toDigits
    · rw [toList_ofInt_neg hpos, h.eq_toDigits]
  · rintro rfl
    obtain ⟨n, rfl | rfl⟩ := z.eq_nat_or_neg
    · rw [toList_ofInt_natCast]
      exact .unsigned (isUnsigned_toDigits n)
    · obtain rfl | hpos := n.eq_zero_or_pos
      · exact .unsigned (isUnsigned_toDigits 0)
      · rw [toList_ofInt_neg hpos]
        exact .negative (isUnsigned_toDigits n) hpos

/-! ## Arithmetic of words

The writer divides and negates words. On a word that is not negative both are those of numbers; the
one word whose negation is not its magnitude is the least. -/

/-- A word that stands for a number is not the least word. -/
theorem ne_minValue_of_toInt {x : Int64} {n : Nat} (h : x.toInt = n) : x ≠ Int64.minValue := by
  rintro rfl
  rw [Int64.toInt_minValue] at h
  omega

/-- A tenth of a word stands for the tenth of its number. -/
theorem toInt_div_ten {x : Int64} {n : Nat} (h : x.toInt = n) : (x / 10).toInt = (n / 10 : Nat) := by
  rw [Int64.toInt_div_of_ne_left _ _ (ne_minValue_of_toInt h), h, show (10 : Int64).toInt = ((10 : Nat) : Int) from rfl,
    Int.ofNat_tdiv]

/-- The negation of a negative word stands for its magnitude, unless it is the least word. -/
theorem toInt_neg_of_ne {x : Int64} {n : Nat} (hx : x.toInt = -n) (hleast : x ≠ Int64.minValue) :
    (-x).toInt = n := by
  have hne : x.toInt ≠ -2 ^ 63 := fun h => hleast (Int64.toInt_inj.mp h)
  have hle := x.le_toInt
  rw [Int64.toInt_neg, hx, neg_neg]
  exact Int.bmod_eq_of_le_mul_two (by omega) (by omega)

/-! ## Filling the buffer

The buffer is filled from its end. The bound on the number of places is an exponent of ten, so the
induction is on the number of places, and each round divides the bound and the number by ten. -/

namespace Buffer

theorem exists_put? {b : Buffer} (h : 0 < b.start) (byte : UInt8) : ∃ b', b.put? byte = some b' :=
  Option.ne_none_iff_exists'.mp fun hnone => (put?_eq_none_iff.mp hnone ▸ h).false

/-- No digits are put for a word that is not positive. -/
theorem putDigits?_of_not_pos {x : Int64} (h : ¬ 0 < x) (b : Buffer) : putDigits? x b = some b := by
  unfold putDigits?
  exact if_neg h

/-- For a positive word its last digit is put, then those of a tenth of it. -/
theorem putDigits?_of_pos {x : Int64} (h : 0 < x) {b b' : Buffer} (hput : b.put? (digit x) = some b') :
    putDigits? x b = putDigits? (x / 10) b' := by
  rw [putDigits?, if_pos h]
  split
  · rename_i b'' hput'
    rw [Option.some.inj (hput'.symm.trans hput)]
  · rename_i hnone
    rw [hnone] at hput
    cases hput

/-- The digit that is put is the last digit of the number. -/
theorem char_digit {x : Int64} {n : Nat} (h : x.toInt = n) : Char.ofUInt8 (digit x) = (n % 10).digitChar := by
  have hlast : x % 10 = Int64.ofNat (n % 10) := by
    have hmod := Int64.toInt_mod x 10
    rw [h, show (10 : Int64).toInt = ((10 : Nat) : Int) from rfl, ← Int.ofNat_tmod] at hmod
    rw [← Int64.ofInt_toInt (x % 10), hmod, Int64.ofInt_eq_ofNat]
  have hall : ∀ k < 10, Char.ofUInt8 (0x30 + Int64.ofNat k).toUInt64.toUInt8 = k.digitChar := by decide
  rw [digit, hlast]
  exact hall _ (Nat.mod_lt _ (by decide))

/-- The digits of a positive number below `10 ^ m` take at most `m` places, and stand before what was there. -/
theorem exists_putDigits? {m n : Nat} (hn : n < 10 ^ m) (hpos : 0 < n) {x : Int64} (hx : x.toInt = n) {b : Buffer}
    (hroom : m ≤ b.start) :
    ∃ b', putDigits? x b = some b' ∧ b'.chars = Nat.toDigits 10 n ++ b.chars ∧ b.start ≤ b'.start + m := by
  -- a pass of the loop takes one place, and leaves a tenth of the number
  induction m generalizing n x b with
  | zero => omega
  | succ m ih =>
    have hx' : 0 < x := by
      rw [Int64.lt_iff_toInt_lt, hx]
      exact Int.natCast_pos.mpr hpos
    obtain ⟨b₁, hput⟩ := exists_put? (b := b) (by omega) (digit x)
    have hstart := start_put? hput
    have hchars := chars_put? hput
    rw [char_digit hx] at hchars
    rw [putDigits?_of_pos hx' hput]
    have htenth := toInt_div_ten hx
    by_cases hlt : n < 10
    · -- the first digit of the number is put last
      have hstop : ¬ 0 < x / 10 := by
        rw [Int64.lt_iff_toInt_lt, htenth, Nat.div_eq_of_lt hlt]
        exact lt_irrefl _
      refine ⟨b₁, putDigits?_of_not_pos hstop b₁, ?_, by omega⟩
      rw [hchars, Nat.mod_eq_of_lt hlt, Nat.toDigits_of_lt_base hlt, List.singleton_append]
    · have hsplit := Nat.toDigits_of_base_le (b := 10) (n := n) (by decide) (by omega)
      obtain ⟨b', hrest, hall, hleft⟩ := ih (n := n / 10) (by rw [pow_succ] at hn; omega) (by omega) htenth
        (b := b₁) (by omega)
      refine ⟨b', hrest, ?_, by omega⟩
      rw [hall, hchars, hsplit, List.append_assoc, List.singleton_append]

/-- The digits of a positive word leave a place for its sign. -/
theorem exists_putDigits?_empty {x : Int64} {n : Nat} (hx : x.toInt = n) (hpos : 0 < n) :
    ∃ b, putDigits? x {} = some b ∧ b.chars = Nat.toDigits 10 n ∧ 0 < b.start := by
  have hlt := x.toInt_lt
  have hn : n < 10 ^ 19 := by
    norm_num
    omega
  obtain ⟨b, hdigits, hchars, hstart⟩ := exists_putDigits? hn hpos hx (b := {}) (by decide)
  rw [chars_empty, List.append_nil] at hchars
  have hempty : ({} : Buffer).start = 20 := rfl
  exact ⟨b, hdigits, hchars, by omega⟩

/-- The least word is its own negative, so it has no digits. -/
theorem exists_ofWord?_minValue : ∃ b, ofWord? Int64.minValue = some b ∧ b.chars = ['-'] := by
  obtain ⟨b, hput⟩ := exists_put? (b := {}) (by decide) '-'.toUInt8
  have hdigits : putDigits? (-Int64.minValue) {} = some {} := putDigits?_of_not_pos (by decide) {}
  refine ⟨b, ?_, chars_put? hput⟩
  rw [ofWord?, if_pos (by decide), hdigits]
  exact hput

/-- Every other word has a magnitude. -/
theorem exists_ofWord?_of_ne {x : Int64} (hzero : x ≠ 0) (hleast : x ≠ Int64.minValue) :
    ∃ b, ofWord? x = some b ∧ b.chars = (ofInt x.toInt).toList := by
  have hne : x.toInt ≠ 0 := fun h => hzero (Int64.toInt_inj.mp h)
  have hneg : x < 0 ↔ x.toInt < 0 := Int64.lt_iff_toInt_lt
  -- a positive word takes digits only, a negative one a sign in front of those of its magnitude
  obtain ⟨n, hx | hx⟩ := x.toInt.eq_nat_or_neg
  · have hsign : ¬ x < 0 := by
      rw [hneg]
      omega
    obtain ⟨b, hdigits, hchars, -⟩ := exists_putDigits?_empty hx (by omega)
    refine ⟨b, ?_, by rw [hchars, hx, toList_ofInt_natCast]⟩
    rw [ofWord?, if_neg hsign, hdigits]
    exact if_neg hsign
  · have hsign : x < 0 := by
      rw [hneg]
      omega
    obtain ⟨b, hdigits, hchars, hroom⟩ := exists_putDigits?_empty (toInt_neg_of_ne hx hleast) (by omega)
    obtain ⟨b', hput⟩ := exists_put? hroom '-'.toUInt8
    refine ⟨b', ?_, ?_⟩
    · rw [ofWord?, if_pos hsign, hdigits]
      exact (if_pos hsign).trans hput
    · rw [chars_put? hput, hchars, hx, toList_ofInt_neg (by omega)]
      rfl

/-- There is room for the numeral of every word. -/
theorem exists_ofWord? (x : Int64) : ∃ b, ofWord? x = some b := by
  by_cases hzero : x = 0
  · refine ⟨{}, ?_⟩
    have hdigits : putDigits? 0 {} = some {} := putDigits?_of_not_pos (by decide) {}
    rw [hzero, ofWord?, if_neg (by decide), hdigits]
    rfl
  by_cases hleast : x = Int64.minValue
  · obtain ⟨b, hb, -⟩ := exists_ofWord?_minValue
    exact ⟨b, hleast ▸ hb⟩
  · obtain ⟨b, hb, -⟩ := exists_ofWord?_of_ne hzero hleast
    exact ⟨b, hb⟩

end Buffer

/-! ## Words

Zero is written without the buffer, and the least word as a sign alone. All other words are written
as their canonical numeral, and are read back from it. -/

/-- A word other than zero is written as what the buffer holds. -/
theorem ofWord_of_ne_zero {x : Int64} (h : x ≠ 0) {b : Buffer} (hb : Buffer.ofWord? x = some b) :
    ofWord x = String.ofList b.chars := by
  rw [ofWord, if_neg h, hb]

/-- The least word is written as a sign without digits. -/
theorem ofWord_minValue : ofWord Int64.minValue = "-" := by
  obtain ⟨b, hb, hchars⟩ := Buffer.exists_ofWord?_minValue
  rw [ofWord_of_ne_zero (by decide) hb, hchars]

/-- A word that has a magnitude is written like the integer that it is. -/
theorem ofWord_eq_ofInt {x : Int64} (h : x ≠ Int64.minValue) : ofWord x = ofInt x.toInt := by
  by_cases hzero : x = 0
  · rw [hzero]
    rfl
  · obtain ⟨b, hb, hchars⟩ := Buffer.exists_ofWord?_of_ne hzero h
    rw [ofWord_of_ne_zero hzero hb, hchars, String.ofList_toList]

/-- A word that stands for a number is written as the number. -/
theorem ofWord_of_toInt {x : Int64} {n : Nat} (h : x.toInt = n) : ofWord x = ofNat n := by
  rw [ofWord_eq_ofInt (ne_minValue_of_toInt h), h, ← String.toList_inj, toList_ofInt_natCast, toList_ofNat]

/-- The digits of a magnitude behind a sign are read as the negative word. -/
theorem readInt_neg {n : Nat} (h : n ≤ 2 ^ 63) :
    readInt 10 ('-' :: Nat.toDigits 10 n) = .ok (Int64.ofInt (-n)) := by
  rw [readInt, readMagnitude_toDigits (by omega)]
  exact if_pos h

/-- The canonical numeral of a word is read as the word. -/
theorem readInt_ofInt (x : Int64) : readInt 10 (ofInt x.toInt).toList = .ok x := by
  have hword := Int64.ofInt_toInt x
  obtain ⟨n, hx | hx⟩ := x.toInt.eq_nat_or_neg
  · have hlt := x.toInt_lt
    rw [hx] at hword ⊢
    rw [toList_ofInt_natCast, readInt_ofNat (by omega), ← Int64.ofInt_eq_ofNat, hword]
  · have hle := x.le_toInt
    rw [hx] at hword ⊢
    obtain rfl | hpos := n.eq_zero_or_pos
    · rw [← hword]
      rfl
    · rw [toList_ofInt_neg hpos, readInt_neg (by omega), hword]

/-- A sign alone is no number. -/
theorem readInt_ofWord (x : Int64) :
    readInt 10 (ofWord x).toList = if x = Int64.minValue then .error .malformed else .ok x := by
  split
  · rename_i hleast
    rw [hleast, ofWord_minValue]
    rfl
  · rename_i hleast
    rw [ofWord_eq_ofInt hleast, readInt_ofInt]

/-- Different words are written differently. -/
theorem ofWord_injective : Function.Injective ofWord := by
  intro x y h
  have hread := readInt_ofWord x
  rw [h, readInt_ofWord y] at hread
  split at hread <;> split at hread <;> cases hread
  · rename_i hy hx
    rw [hx, hy]
  · rfl

/-- A word is its own text's number, unless it is the least one. -/
theorem isNumeral_ofWord_iff (x : Int64) :
    (∀ s, IsNumeral s x.toInt ↔ s = (ofWord x).toList) ↔ x ≠ Int64.minValue := by
  constructor
  · rintro h rfl
    have hnumeral := isNumeral_iff.mp ((h _).mpr rfl)
    rw [ofWord_minValue] at hnumeral
    exact absurd hnumeral (by decide)
  · intro h s
    rw [isNumeral_iff, ofWord_eq_ofInt h]

end Numeral

/-! ## Names

Names of labels and registers are a stem with a number behind it, so they differ where the numbers
do. -/

/-- The two kinds of registers have different stems. -/
theorem Reg.render_object_ne (n n' : Nat) : (Reg.object n).render ≠ (Reg.boolean n').render := by
  intro h
  have hlist := congrArg String.toList h
  simp [Reg.render] at hlist

/-- Registers of different numbers or kinds have different names. -/
theorem Reg.render_injective : Function.Injective Reg.render := by
  intro r r' h
  cases r with
  | object n =>
    cases r' with
    | object n' => exact congrArg Reg.object (Numeral.ofNat_inj.mp ((String.append_right_inj _).mp h))
    | boolean n' => exact absurd h (Reg.render_object_ne n n')
  | boolean n =>
    cases r' with
    | object n' => exact absurd h.symm (Reg.render_object_ne n' n)
    | boolean n' => exact congrArg Reg.boolean (Numeral.ofNat_inj.mp ((String.append_right_inj _).mp h))

namespace Numeral

/-- The buffer has room for the numeral of every word, and holds nothing else. What is written is the one canonical
numeral of the word, and is read back as the word, unless it is the least one: then it is a sign alone. So texts that
differ only in the word at their end differ, and labels and registers, whose numbers are words, are told apart by their
names. -/
theorem ofWord_exact (x : Int64) :
    (∃ b, Buffer.ofWord? x = some b ∧
      (x ≠ 0 → ofWord x = String.ofList b.chars ∧ (ofWord x).length + b.start = 20)) ∧
    ((∀ s, IsNumeral s x.toInt ↔ s = (ofWord x).toList) ↔ x ≠ Int64.minValue) ∧
    (readInt 10 (ofWord x).toList = .ok x ↔ x ≠ Int64.minValue) ∧
    (ofWord x = "-" ↔ x = Int64.minValue) ∧
    (∀ front y, front ++ ofWord x = front ++ ofWord y ↔ x = y) ∧
    (∀ n : Nat, x.toInt = n → Label.name ⟨n⟩ = "label_" ++ ofWord x ∧
      (Reg.object n).render = "$P" ++ ofWord x ∧ (Reg.boolean n).render = "$I" ++ ofWord x) ∧
    Function.Injective Label.name ∧ Function.Injective Reg.render := by
  refine ⟨?_, isNumeral_ofWord_iff x, ?_, ?_, fun front y => ?_, fun n hn => ?_, Label.name_injective,
    Reg.render_injective⟩
  · obtain ⟨b, hb⟩ := Buffer.exists_ofWord? x
    refine ⟨b, hb, fun hzero => ?_⟩
    have htext := ofWord_of_ne_zero hzero hb
    refine ⟨htext, ?_⟩
    rw [htext, String.length_ofList]
    exact b.length_chars_add_start
  -- the word that cannot be read back is the least one, whose digits are missing
  · rw [readInt_ofWord]
    split
    · exact iff_of_false nofun (not_not_intro ‹_›)
    · exact iff_of_true rfl ‹_›
  · rw [← ofWord_minValue]
    exact ofWord_injective.eq_iff
  · rw [String.append_right_inj]
    exact ofWord_injective.eq_iff
  · rw [ofWord_of_toInt hn]
    exact ⟨rfl, rfl, rfl⟩

/-- The least word that has a numeral, whose sign takes the last place of the buffer, and the number of a label. -/
theorem ofWord_exact_longest :
    let x : Int64 := -0x7fffffffffffffff
    x ≠ 0 ∧ (∃ b, Buffer.ofWord? x = some b ∧ String.ofList b.chars = "-9223372036854775807" ∧ b.start = 0) ∧
      x ≠ Int64.minValue ∧ IsNumeral "-9223372036854775807".toList (-9223372036854775807) ∧
      (10 : Int64).toInt = (10 : Nat) ∧ Label.name ⟨10⟩ = "label_" ++ ofWord 10 := by
  intro x
  obtain ⟨⟨b, hb, hwritten⟩, hnumeral, -⟩ := ofWord_exact x
  have hzero : x ≠ 0 := by decide
  have hleast : x ≠ Int64.minValue := by decide
  have htext : ofWord x = "-9223372036854775807" := (ofWord_eq_ofInt hleast).trans (by decide)
  obtain ⟨hchars, hlength⟩ := hwritten hzero
  rw [htext] at hchars hlength
  obtain ⟨-, -, -, -, -, hnames, -⟩ := ofWord_exact 10
  have hten : (10 : Int64).toInt = (10 : Nat) := by decide
  exact ⟨hzero, ⟨b, hb, hchars.symm, Nat.left_eq_add.mp hlength.symm⟩, hleast,
    (hnumeral.mpr hleast _).mpr (by rw [htext]), hten, (hnames 10 hten).1⟩

/-- The least word is not written as its numeral. -/
theorem not_isNumeral_ofWord_least : ¬ IsNumeral (ofWord Int64.minValue).toList Int64.minValue.toInt := by
  rw [isNumeral_iff, ofWord_minValue]
  decide

end Numeral

end ScriptPir

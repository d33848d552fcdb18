import ScriptPir.Proofs.FloatReading
import ScriptPir.Proofs.Lexing
import ScriptPir.Value.Literal

/-!
# Constants are read back

A whole number or a finite double that is not negative, and a string that is well quoted, are written as one token.
That token is a literal of the constant.

* `lex_spelling` — a text that spells a token is read as this one token;
* `readInt_ofNat` — the digits of a number are read as the number;
* `render_reads_back` — what is written for a constant is one token of its kind, whose value is the constant.

A minus sign is an operator and no part of a number, so constants below zero are not written as one
token. A string has to be well quoted, which is what `strings_wellQuoted_iff` decides for a whole
program.
-/

namespace ScriptPir

open Lexer

/-! ## Whole numbers

The reader works on words and checks its bound after every digit. Since the number only grows with
its digits, a number that is a word never fails the check. -/

namespace Numeral

/-- A number only grows when digits are read. -/
theorem le_ofDigitChars (ds : List Char) (n : Nat) : n ≤ Nat.ofDigitChars 10 ds n := by
  rw [Nat.ofDigitChars_eq_ofDigitChars_zero]
  have hpow : 1 ≤ 10 ^ ds.length := Nat.one_le_pow _ _ (by decide)
  have hmul := Nat.le_mul_of_pos_left n hpow
  omega

/-- Digits are read as their number if it is a word. -/
theorem readDigits_eq {ds : List Char} (h : ∀ c ∈ ds, Lexer.isDigit c = true) {n : Nat}
    (hfits : Nat.ofDigitChars 10 ds n < 2 ^ 64) : readDigits 10 n ds = .ok (Nat.ofDigitChars 10 ds n) := by
  induction ds generalizing n with
  | nil => rfl
  | cons c ds ih =>
    rw [List.forall_mem_cons] at h
    obtain ⟨hvalue, hlt⟩ := digitValue?_of_isDigit h.1
    rw [Nat.ofDigitChars_cons, Nat.mul_comm] at hfits ⊢
    -- the number of a beginning is no larger than that of all digits
    have hsmall := le_ofDigitChars ds (n * 10 + (c.toNat - '0'.toNat))
    have hin : ¬ Nat.pow 2 64 ≤ n * 10 + (c.toNat - '0'.toNat) := by
      rw [Nat.pow_eq]
      omega
    unfold readDigits
    simp only [hvalue]
    rw [if_neg (Nat.not_le_of_lt hlt), if_neg hin]
    exact ih h.2 hfits

/-- The digits of a number are read as the number if it is a word. -/
theorem readMagnitude_toDigits {n : Nat} (h : n < 2 ^ 64) : readMagnitude 10 (Nat.toDigits 10 n) = .ok n := by
  have hdigits : ∀ c ∈ Nat.toDigits 10 n, Lexer.isDigit c = true := fun c => isDigit_of_mem_toDigits
  have hnumber : Nat.ofDigitChars 10 (Nat.toDigits 10 n) 0 = n := Nat.ofDigitChars_ten_toDigits
  have hall := readDigits_eq hdigits (n := 0) (by rwa [hnumber])
  unfold readMagnitude
  split
  · rename_i hnil
    exact absurd hnil Nat.toDigits_ne_nil
  · rw [hall, hnumber]

/-- The digits of a number are read as the number, if it is a word that is not negative. -/
theorem readInt_ofNat {n : Nat} (h : n < 2 ^ 63) : readInt 10 (Nat.toDigits 10 n) = .ok (Int64.ofNat n) := by
  have hdigits : ∀ c ∈ Nat.toDigits 10 n, Lexer.isDigit c = true := fun c => isDigit_of_mem_toDigits
  unfold readInt
  split
  · rename_i cs heq
    exact absurd (hdigits '-' (by rw [heq]; exact List.mem_cons_self)) (by decide)
  · rename_i cs heq
    exact absurd (hdigits '+' (by rw [heq]; exact List.mem_cons_self)) (by decide)
  · rw [readMagnitude_toDigits (by omega)]
    exact if_pos h

end Numeral

/-! ## Constants

For each kind: its text spells a token of the kind, the lexer finds that token, and the literal of
the token is the value. The first step is where the forms of the three kinds differ. -/

/-- The text of a value is one token of a kind, and what that token stands for is the value. -/
def Value.ReadsBack (v : Value) (kind : TokenKind) : Prop :=
  ∃ t : Token, lex (.ofString v.render) = ⟨[.token t], none⟩ ∧ t.kind = kind ∧ literal t = .ok v

/-- A text that spells a token is read as this one token. -/
theorem lex_spelling {kind : TokenKind} {text : String} (h : IsSpelling kind text.toList) (hkind : kind ≠ .pir) :
    ∃ t : Token, lex (.ofString text) = ⟨[.token t], none⟩ ∧ t.kind = kind ∧ t.text = text := by
  obtain ⟨tokens, hlex, htokens⟩ := lex_line [⟨kind, text, h⟩]
  have hline : Spelling.line [⟨kind, text, h⟩] = text := by
    simp [Spelling.line, Spelling.written, hkind]
  rw [hline] at hlex
  obtain ⟨t, rfl⟩ : ∃ t, tokens = [t] := List.length_eq_one_iff.mp (by simpa using congrArg List.length htokens)
  obtain ⟨hk, ht⟩ : t.kind = kind ∧ t.text = text := by simpa using htokens
  exact ⟨t, hlex, hk, ht⟩

/-- Underscores are left out of numbers, and there are none among digits. -/
theorem filter_digits {s : List Char} (h : ∀ c ∈ s, Lexer.isDigit c = true ∨ c = '.') :
    s.filter (fun c => decide (c ≠ '_')) = s := by
  rw [List.filter_eq_self]
  intro c hc
  rw [decide_eq_true_eq]
  rintro rfl
  exact absurd (h _ hc) (by decide)

/-- Digits are no hexadecimal number, so they are read in decimal. -/
theorem Literal.int_of_digits {s : List Char} (h : ∀ c ∈ s, Lexer.isDigit c = true) {n : Int64}
    (hread : Numeral.readInt 10 s = .ok n) : Literal.int (String.ofList s) = .ok (.int n) := by
  have hplain : ∀ c ∈ s, c ≠ 'x' ∧ c ≠ 'X' := fun c hc =>
    ⟨ne_of_class (h c hc) (by decide), ne_of_class (h c hc) (by decide)⟩
  have hfilter : (String.ofList s).toList.filter (fun c => decide (c ≠ '_')) = s := by
    rw [String.toList_ofList, filter_digits fun c hc => .inl (h c hc)]
  unfold Literal.int
  extract_lets digits
  have hdigits : digits = s := hfilter
  clear_value digits
  subst hdigits
  split
  rename_i base rest hsplit
  -- the second digit is no letter, so the base is ten
  have hdecimal : base = 10 ∧ rest = digits := by
    split at hsplit
    · exact absurd rfl (hplain 'x' (by simp)).1
    · exact absurd rfl (hplain 'X' (by simp)).2
    · cases hsplit
      exact ⟨rfl, rfl⟩
  rw [hdecimal.1, hdecimal.2, hread]

/-- A whole number that is not negative is read back. -/
theorem readsBack_int {n : Int64} (h : 0 ≤ n.toInt) : (Value.int n).ReadsBack .int := by
  have hdigits : ∀ c ∈ Nat.toDigits 10 n.toInt.natAbs, Lexer.isDigit c = true :=
    fun c => Numeral.isDigit_of_mem_toDigits
  have htext : (Value.int n).render = String.ofList (Nat.toDigits 10 n.toInt.natAbs) := if_neg (by omega)
  obtain ⟨c, rest, hcons⟩ := List.exists_cons_of_ne_nil (Nat.toDigits_ne_nil (b := 10) (n := n.toInt.natAbs))
  -- one digit at least, and digits only
  have hspelled : IsSpelling .int (Value.int n).render.toList := by
    rw [htext, String.toList_ofList, hcons]
    refine .int (hdigits c (by rw [hcons]; exact List.mem_cons_self)) fun d hd => ?_
    rw [hdigits d (by rw [hcons]; exact List.mem_cons_of_mem _ hd)]
    rfl
  obtain ⟨t, hlex, hkind, ht⟩ := lex_spelling hspelled (by decide)
  refine ⟨t, hlex, hkind, ?_⟩
  have hlt : n.toInt.natAbs < 2 ^ 63 := by
    have hle := n.toInt_le
    have hmax : Int64.maxValue.toInt = 2 ^ 63 - 1 := rfl
    omega
  have hword : Int64.ofNat n.toInt.natAbs = n := by
    rw [← Int64.ofInt_toInt n, ← Int64.ofInt_eq_ofNat, Int.natAbs_of_nonneg (by simpa using h)]
    simp
  rw [literal, hkind]
  show Literal.int t.text = _
  rw [ht, htext]
  exact Literal.int_of_digits hdigits (by rw [Numeral.readInt_ofNat hlt, hword])

/-- A finite double that is not negative is read back. -/
theorem readsBack_float {x : Float} (hfinite : x.isFinite = true) (hsign : x.toBits.toNat < 2 ^ 63) :
    (Value.float x).ReadsBack .float := by
  obtain ⟨whole, fraction, v, hpointed, -⟩ := Numeral.exists_pointed_ofFloat hfinite hsign
  have htext : (Value.float x).render = Numeral.ofFloat x := rfl
  have hchars : ∀ c ∈ (Numeral.ofFloat x).toList, Lexer.isDigit c = true ∨ c = '.' := by
    intro c hc
    rw [hpointed.text, List.mem_append, List.mem_cons] at hc
    obtain hc | rfl | hc := hc
    · exact .inl (hpointed.whole_digits.all c hc)
    · exact .inr rfl
    · exact .inl (hpointed.fraction_digits.all c hc)
  obtain ⟨c, rest, hwhole⟩ := List.exists_cons_of_ne_nil hpointed.whole_digits.ne_nil
  -- digits on both sides of a point, without an exponent
  have hspelled : IsSpelling .float (Value.float x).render.toList := by
    have hdigits := hpointed.whole_digits.all
    rw [htext, hpointed.text]
    rw [hwhole] at hdigits ⊢
    rw [List.forall_mem_cons] at hdigits
    have hrest : ∀ d ∈ rest, (isDigit d || d == '_') = true := fun d hd => by rw [hdigits.2 d hd]; rfl
    have hfloat := IsSpelling.float hdigits.1 hrest (.some hpointed.fraction_digits) .none (by simp)
    simpa using hfloat
  obtain ⟨t, hlex, hkind, ht⟩ := lex_spelling hspelled (by decide)
  refine ⟨t, hlex, hkind, ?_⟩
  rw [literal, hkind]
  show Literal.float t.text = _
  rw [ht, htext, Literal.float, filter_digits hchars, Numeral.readFloat_ofFloat hfinite hsign]

/-- A string that is well quoted is read back. -/
theorem readsBack_str {s : String} (h : WellQuoted '"' s.toList) : (Value.str s).ReadsBack .string := by
  have htext : (Value.str s).render.toList = '"' :: (s.toList ++ ['"']) := by
    show ("\"" ++ s ++ "\"").toList = _
    simp
  have hspelled : IsSpelling .string (Value.str s).render.toList := by
    rw [htext]
    exact .string (.inr rfl) h
  obtain ⟨t, hlex, hkind, ht⟩ := lex_spelling hspelled (by decide)
  have hquoted : t.Quoted '"' s.toList := ⟨.inr rfl, by rw [ht, htext], h⟩
  refine ⟨t, hlex, hkind, ?_⟩
  rw [literal_of_quoted hquoted hkind, if_neg (by decide), String.ofList_toList]

/-- Constants that are written down are read back: whole numbers and doubles that are not negative, and strings
that are well quoted. Each is one token of its kind, whose value is the constant. -/
theorem render_reads_back :
    (∀ n : Int64, 0 ≤ n.toInt → (Value.int n).ReadsBack .int) ∧
    (∀ x : Float, x.isFinite = true → x.toBits.toNat < 2 ^ 63 → (Value.float x).ReadsBack .float) ∧
    ∀ s : String, WellQuoted '"' s.toList → (Value.str s).ReadsBack .string :=
  ⟨fun _ h => readsBack_int h, fun _ hfinite hsign => readsBack_float hfinite hsign, fun _ h => readsBack_str h⟩

/-- The largest whole number, the least double, whose text has more than three hundred zeros, and a string with an
escaped quote. -/
theorem render_reads_back_extreme :
    let least : Float := Float.ofBits 1
    0 ≤ (Int64.maxValue).toInt ∧ (Value.int Int64.maxValue).ReadsBack .int ∧
      least.isFinite = true ∧ least.toBits.toNat < 2 ^ 63 ∧ (Value.float least).ReadsBack .float ∧
      WellQuoted '"' "say \\\"x\\\"".toList ∧ (Value.str "say \\\"x\\\"").ReadsBack .string := by
  intro least
  have hfinite : least.isFinite = true := by decide
  have hsign : least.toBits.toNat < 2 ^ 63 := by decide
  have hint : 0 ≤ (Int64.maxValue).toInt := by decide
  have hquoted : WellQuoted '"' "say \\\"x\\\"".toList := by
    rw [wellQuoted_iff]
    simp [Escape.marks_cons, Escape.marks_nil, Escape.step, Escape.after]
  obtain ⟨hints, hfloats, hstrings⟩ := render_reads_back
  exact ⟨hint, hints _ hint, hfinite, hsign, hfloats _ hfinite hsign, hquoted, hstrings _ hquoted⟩

end ScriptPir

import Mathlib.Data.Int.ModEq
import ScriptPir.Proofs.WellFormed

/-!
# What folds compute

Arithmetic on integer constants is that of the integers, cut down to words of 64 bits, and a string times
a number is that many copies of it.

* `power_ofInt` — a power by repeated squaring is the power, though every product on the way wraps;
* `fold_ints_exact` — the fold of two integers is the exact result in a word, and fails just where there
  is none;
* `copiesOnto_eq` — repeated doubling puts the copies behind the text it starts with;
* `fold_repetition_exact` — the fold of a string and a number.

The failures are exact too: division and remainder fail for a divisor of zero, a power for a negative
exponent, and a repetition for a result that is too long. A count below one gives the empty string.
-/

namespace ScriptPir

namespace Fold

/-! ## Integers

The exact result is taken over the integers, where nothing overflows (`result?`), and a word is
compared with it by its remainder. `Int64.ofInt` is a homomorphism, which is all that the operations
need. -/

/-- The exact result of an operation on integers, if it has one. -/
def result? (op : String) (l r : Int) : Option Int :=
  match op with
  | "+" => some (l + r)
  | "-" => some (l - r)
  | "*" => some (l * r)
  | "/" => if r = 0 then none else some (l.tdiv r)
  | "%" => if r = 0 then none else some (l.tmod r)
  | "**" => if r < 0 then none else some (l ^ r.toNat)
  | _ => none

/-- Words are a ring, so a power by squaring is that of the integers, in spite of all that wraps. -/
theorem power_ofInt (x : Int) (n : Nat) : power (Int64.ofInt x) n = Int64.ofInt (x ^ n) := by
  -- on the exponent, which every round halves, for all bases
  induction n using Nat.strongRecOn generalizing x with
  | _ n ih =>
    rw [power]
    split
    · rename_i hn
      rw [hn, pow_zero]
      rfl
    · rename_i hn
      have hhalf : power (Int64.ofInt x * Int64.ofInt x) (n / 2) = Int64.ofInt (x ^ (2 * (n / 2))) := by
        rw [← Int64.ofInt_mul, ih (n / 2) (by omega), ← pow_two, ← pow_mul]
      simp only [hhalf]
      split
      · rw [← Int64.ofInt_mul, ← pow_succ']
        congr 2
        omega
      · congr 2
        omega

/-- An integer in a word is its balanced remainder. -/
theorem toInt_ofInt (z : Int) : (Int64.ofInt z).toInt = z.bmod (2 ^ 64) := Int64.toInt_ofInt

/-- A word is the one of a number if it has its remainder. -/
theorem word_eq_ofInt {x : Int64} {z : Int} (h : x.toInt = z.bmod (2 ^ 64)) : x = Int64.ofInt z := by
  rw [← Int64.toInt_inj, h, toInt_ofInt]

theorem word_eq_zero_iff (x : Int64) : x = 0 ↔ x.toInt = 0 := by
  rw [← Int64.toInt_inj]
  rfl

/-- Where there is an exact result, it is the result in a word. -/
theorem ints_eq_of_result {op : String} {l r : Int64} {z : Int}
    (h : result? op l.toInt r.toInt = some z) : ints op l r = .ok (.int (Int64.ofInt z)) := by
  unfold result? at h
  split at h
  · cases h
    rw [ints, word_eq_ofInt (Int64.toInt_add l r)]
  · cases h
    rw [ints, word_eq_ofInt (Int64.toInt_sub l r)]
  · cases h
    rw [ints, word_eq_ofInt (Int64.toInt_mul l r)]
  · split at h
    · cases h
    · rename_i hr
      cases h
      rw [ints, if_neg (mt (word_eq_zero_iff r).mp hr), word_eq_ofInt (Int64.toInt_div l r)]
  · split at h
    · cases h
    · rename_i hr
      cases h
      -- a remainder always fits
      rw [ints, if_neg (mt (word_eq_zero_iff r).mp hr), ← Int64.toInt_mod, Int64.ofInt_toInt]
  · split at h
    · cases h
    · rename_i hr
      cases h
      rw [ints, if_neg (mt Int64.lt_iff_toInt_lt.mp hr), ← power_ofInt, Int64.ofInt_toInt]
      rfl
  · cases h

/-- There is no exact result for a division by zero, a negative exponent and an operator that is no
arithmetic. -/
theorem result?_eq_none_iff (op : String) (l r : Int) :
    result? op l r = none ↔
      (r = 0 ∧ (op = "/" ∨ op = "%")) ∨ (r < 0 ∧ op = "**") ∨ op ∉ arithmeticOps := by
  unfold result?
  split <;> simp_all [arithmeticOps]

/-- Where there is no exact result, the fold fails. -/
theorem exists_error_of_result {op : String} {l r : Int64} (h : result? op l.toInt r.toInt = none) :
    ∃ e, ints op l r = .error e := by
  unfold ints
  obtain ⟨hr, rfl | rfl⟩ | ⟨hr, rfl⟩ | hop := (result?_eq_none_iff op l.toInt r.toInt).mp h
  · exact ⟨_, if_pos ((word_eq_zero_iff r).mpr hr)⟩
  · exact ⟨_, if_pos ((word_eq_zero_iff r).mpr hr)⟩
  · exact ⟨_, if_pos (Int64.lt_iff_toInt_lt.mpr hr)⟩
  · refine ⟨.unsupported op .integer .integer, ?_⟩
    split <;> first | rfl | simp [arithmeticOps] at hop

/-- The quotient may wrap, for the least integer over minus one, and still fits the remainder. -/
theorem quotient_remainder (l r : Int64) :
    l.toInt ≡ (l / r).toInt * r.toInt + (l % r).toInt [ZMOD 2 ^ 64] := by
  have hquotient : (l / r).toInt ≡ l.toInt.tdiv r.toInt [ZMOD 2 ^ 64] := by
    rw [Int64.toInt_div]
    exact Int.bmod_emod
  calc l.toInt = l.toInt.tdiv r.toInt * r.toInt + l.toInt.tmod r.toInt :=
        (Int.tdiv_mul_add_tmod ..).symm
    _ ≡ (l / r).toInt * r.toInt + (l % r).toInt [ZMOD 2 ^ 64] := by
        rw [Int64.toInt_mod]
        exact (hquotient.symm.mul_right _).add_right _

end Fold

/-- The fold of two integers is the exact result of the operation in a word, for every operator and all
operands. It fails just where there is no such result. -/
theorem fold_ints_exact (op : String) (l r : Int64) :
    (∀ z, Fold.result? op l.toInt r.toInt = some z →
      ∃ v : Int64, fold op (.int l) (.int r) = .ok (.int v) ∧ v.toInt = z.bmod (2 ^ 64)) ∧
    ((∃ e, fold op (.int l) (.int r) = .error e) ↔
      (r.toInt = 0 ∧ (op = "/" ∨ op = "%")) ∨ (r.toInt < 0 ∧ op = "**") ∨ op ∉ arithmeticOps) ∧
    (r ≠ 0 → ∃ q m : Int64, fold "/" (.int l) (.int r) = .ok (.int q) ∧
      fold "%" (.int l) (.int r) = .ok (.int m) ∧
      l.toInt ≡ q.toInt * r.toInt + m.toInt [ZMOD 2 ^ 64]) := by
  refine ⟨fun z hz => ⟨Int64.ofInt z, Fold.ints_eq_of_result hz, Fold.toInt_ofInt z⟩, ?_, fun hr => ?_⟩
  · rw [← Fold.result?_eq_none_iff op l.toInt r.toInt]
    constructor
    · rintro ⟨e, he⟩
      cases hresult : Fold.result? op l.toInt r.toInt with
      | none => rfl
      | some z => cases he.symm.trans (Fold.ints_eq_of_result hresult)
    · exact Fold.exists_error_of_result
  · exact ⟨l / r, l % r, if_neg hr, if_neg hr, Fold.quotient_remainder l r⟩

example : fold "/" (.int (-9223372036854775808)) (.int (-1)) = .ok (.int (-9223372036854775808)) := rfl

/-! ## Strings

Copies are made by repeated doubling. The loop keeps what is done in front of what is left to do
(`copiesOnto_eq`), and the bound on the length is checked by a quotient, which is exact since both
numbers are positive. -/

namespace Fold

/-- Copies of a doubled text are twice as many copies of the text. -/
theorem join_replicate_double (s : String) (k : Nat) :
    String.join (List.replicate k (s ++ s)) = String.join (List.replicate (2 * k) s) := by
  induction k with
  | zero => rfl
  | succ k ih =>
    rw [List.replicate_succ, String.join_cons, ih, Nat.mul_succ, List.replicate_succ,
      List.replicate_succ, String.join_cons, String.join_cons, String.append_assoc]

/-- A round takes one copy for an odd count, and goes on with twice the copy half as often. -/
theorem copiesOnto_eq (acc s : String) (n : Nat) :
    copiesOnto acc s n = acc ++ String.join (List.replicate n s) := by
  -- the text so far and the copies to come make up the same text in every round
  have hround (acc s : String) (n : Nat) :
      (if n % 2 = 1 then acc ++ s else acc) ++ String.join (List.replicate (n / 2) (s ++ s)) =
        acc ++ String.join (List.replicate n s) := by
    rw [join_replicate_double]
    obtain heven | hodd := Nat.mod_two_eq_zero_or_one n
    · rw [if_neg (by omega), show 2 * (n / 2) = n by omega]
    · rw [if_pos hodd, String.append_assoc, ← String.join_cons, ← List.replicate_succ,
        show 2 * (n / 2) + 1 = n by omega]
  fun_induction copiesOnto acc s n with
  | case1 => exact String.append_empty.symm
  | case2 acc s =>
    rw [← hround]
    exact String.append_empty.symm
  | case3 acc s n _ _ _ ih => exact ih.trans (hround acc s n)

/-- The quotient that bounds the length of a copy is that of the integers. -/
theorem toInt_maxRepeat_div {n : Int64} (hn : 0 < n.toInt) :
    (maxRepeat / n).toInt = 2 ^ 24 / n.toInt := by
  have hmax : maxRepeat.toInt = 2 ^ 24 := rfl
  have hle : (2 ^ 24 : Int) / n.toInt ≤ 2 ^ 24 := Int.ediv_le_self _ (by decide)
  have hnonneg : 0 ≤ (2 ^ 24 : Int) / n.toInt := Int.ediv_nonneg (by decide) hn.le
  rw [Int64.toInt_div, hmax, Int.tdiv_eq_ediv_of_nonneg (by decide)]
  exact Int.bmod_eq_of_le_mul_two (by omega) (by omega)

/-- A copy is longer than the quotient just where the copies are too long together. -/
theorem quotient_lt_iff {n : Int64} (hn : 0 < n.toInt) (size : Nat) :
    (maxRepeat / n).toNatClampNeg < size ↔ ¬n.toInt * size ≤ 2 ^ 24 := by
  have hnonneg : 0 ≤ (maxRepeat / n).toInt := by
    rw [toInt_maxRepeat_div hn]
    exact Int.ediv_nonneg (by decide) hn.le
  rw [← Int64.toNat_toInt, Int.toNat_lt hnonneg, toInt_maxRepeat_div hn, Int.ediv_lt_iff_lt_mul hn,
    not_le, mul_comm]

end Fold

/-- The fold of a string and a number, in either order: the copies of the string, unless they are too
long together. The quotient that bounds the length of a copy is exact. -/
theorem fold_repetition_exact (s : String) (n : Int64) :
    fold "*" (.int n) (.str s) = fold "*" (.str s) (.int n) ∧
    fold "*" (.str s) (.int n) =
      (if n.toInt ≤ 0 ∨ s = "" then .ok (.str "")
      else if n.toInt * s.utf8ByteSize ≤ 2 ^ 24 then
        .ok (.str (String.join (List.replicate n.toInt.toNat s)))
      else .error .repetitionTooLong) ∧
    FoldError.message .repetitionTooLong = "String repetition too long!" ∧
    (∀ (acc : String) (k : Nat),
      Fold.copiesOnto acc s k = acc ++ String.join (List.replicate k s)) ∧
    (0 < n → (Fold.maxRepeat / n).toInt = 2 ^ 24 / n.toInt) := by
  have hpos : 0 < n ↔ 0 < n.toInt := Int64.lt_iff_toInt_lt
  refine ⟨rfl, ?_, rfl, fun acc k => Fold.copiesOnto_eq acc s k,
    fun hn => Fold.toInt_maxRepeat_div (hpos.mp hn)⟩
  show Fold.repeated s n = _
  rw [Fold.repeated, Fold.copies, Fold.copiesOnto_eq, String.empty_append]
  by_cases hn : 0 < n.toInt
  · have hguard := Fold.quotient_lt_iff hn s.utf8ByteSize
    -- an empty text is never too long, and neither is what is made of it
    by_cases hs : s = ""
    · subst hs
      have hempty : String.join (List.replicate n.toNatClampNeg "") = "" := by
        rw [← String.toList_inj, String.toList_join]
        simp
      rw [if_neg (fun h => hguard.mp h.2 (by simp)), if_pos (.inr rfl), hempty]
    · rw [if_neg (c := n.toInt ≤ 0 ∨ s = "") (by simp [hs, hn])]
      by_cases hshort : n.toInt * s.utf8ByteSize ≤ 2 ^ 24
      · rw [if_neg (fun h => hguard.mp h.2 hshort), if_pos hshort, Int64.toNat_toInt]
      · rw [if_pos ⟨hpos.mpr hn, hguard.mpr hshort⟩, if_neg hshort]
  · -- a count below one is no copy
    have hzero : n.toNatClampNeg = 0 := Int.toNat_of_nonpos (not_lt.mp hn)
    rw [if_neg (fun h => hn (hpos.mp h.1)), if_pos (.inl (not_lt.mp hn)), hzero]
    rfl

end ScriptPir

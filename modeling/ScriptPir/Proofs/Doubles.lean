import Mathlib
import ScriptPir.Numeral.FloatText

/-!
# Finite doubles

A double is finite unless all bits of its exponent are set. Negation leaves the exponent alone, and a
text that is read as a fraction gives bits below those of infinity.

* `isFinite_ofFloat` — a double that is taken apart is finite exactly if it is;
* `isFinite_neg` — the negation of a finite double is finite;
* `isFinite_of_readFloat` — a text that begins with a digit is read as a finite double, or not at all;
* `point_mem_ofFloat` — the text of a finite double has a point.

The bits are taken apart as natural numbers, so finiteness is an inequality. The largest number that a
text is read as is below the bits of infinity, because a number that rounds to more is an error.
-/

namespace ScriptPir.Numeral

open Float.Model Float.Model.UnpackedFloat

/-! ## Exponents

A double is finite or not by its exponent, whether it is taken as bits, as a float or apart as a
sign, a mantissa and a power of two. The bits are split by division, so that `omega` can follow. -/

/-- The exponent of the bits of a double. -/
def exponentOf (bits : UInt64) : BitVec 11 := @unpackExponent .binary64 bits.toBitVec

/-- The exponent stands above the 52 bits of the fraction. -/
theorem toNat_exponentOf (bits : UInt64) :
    (exponentOf bits).toNat = bits.toNat / 2 ^ 52 % 2 ^ 11 := by
  rw [exponentOf, unpackExponent_def, BitVec.extractLsb'_toNat, Nat.shiftRight_eq_div_pow]
  rfl

/-- All bits of the exponent are set if it is the largest number of eleven bits. -/
theorem exponentOf_eq_iff (bits : UInt64) :
    exponentOf bits = -1#11 ↔ bits.toNat / 2 ^ 52 % 2 ^ 11 = 2047 := by
  rw [← BitVec.toNat_inj, toNat_exponentOf]
  rfl

/-- Infinities and what is no number are told by their exponent. -/
theorem isFinite_unpack (spec : Format) (b : BitVec spec.numBits) :
    (UnpackedFloat.unpack spec b).isFinite = true ↔ unpackExponent b ≠ -BitVec.ofNat spec.exponentBits 1 := by
  unfold UnpackedFloat.unpack
  simp only
  split
  · rename_i h
    split <;> simp [UnpackedFloat.isFinite, h]
  · rename_i h
    split
    · split <;> simp [UnpackedFloat.isFinite, h]
    · simp [UnpackedFloat.isFinite, h]

/-- A float is finite unless all bits of its exponent are set. -/
theorem isFinite_iff (x : Float) : x.isFinite = true ↔ exponentOf x.toBits ≠ -1#11 :=
  isFinite_unpack .binary64 _

/-- A negation changes the sign only. -/
theorem unpackExponent_pack_neg (spec : Format) (u : UnpackedFloat) :
    unpackExponent (u.neg.pack spec) = unpackExponent (u.pack spec) := by
  cases u with
  | notANumber => rfl
  | infinity s => simp [UnpackedFloat.neg, UnpackedFloat.pack, packedInfinity]
  | zero s => simp [UnpackedFloat.neg, UnpackedFloat.pack, packedZero]
  | finite s m e hm =>
    simp only [UnpackedFloat.neg, UnpackedFloat.pack]
    split
    · simp [packedInfinity]
    · split <;> simp

/-- Negation keeps a double finite. -/
theorem isFinite_neg {x : Float} (h : x.isFinite = true) : (-x).isFinite = true := by
  have hneg : exponentOf (-x).toBits = exponentOf x.toBits := by
    show @unpackExponent .binary64 (x.toModel.unpack.neg.pack .binary64) = _
    rw [unpackExponent_pack_neg, Float.Model.unpack, pack_unpack_of_valid x.toModel.valid]
    rfl
  rw [isFinite_iff, hneg]
  exact (isFinite_iff x).mp h

/-- Bits that are no error value stand for a double with these bits. -/
theorem toBits_ofBits {bits : UInt64} (h : exponentOf bits ≠ -1#11) :
    (Float.ofBits bits).toBits = bits := by
  have hnan : @isNaNBits .binary64 bits.toBitVec = false := by
    simp only [isNaNBits, decide_eq_false_iff_not, not_and]
    exact fun hexponent => absurd hexponent h
  apply UInt64.toBitVec_inj.mp
  show (UnpackedFloat.unpack .binary64 bits.toBitVec).pack .binary64 = bits.toBitVec
  rw [pack_unpack, hnan]
  rfl

namespace Binary64

/-- Bits that are taken apart are finite unless their exponent is the largest one. -/
theorem isFinite_ofBits (bits : UInt64) :
    (ofBits bits).isFinite = true ↔ bits.toNat / 2 ^ 52 % 2 ^ 11 ≠ 2047 := by
  unfold ofBits
  simp only [beq_iff_eq, Nat.pow_eq]
  split
  · rename_i h
    split <;> simp [isFinite, h]
  · rename_i h
    split <;> simp [isFinite, h]

/-- A float is finite exactly if it is when it is taken apart. -/
theorem isFinite_ofFloat (x : Float) : (ofFloat x).isFinite = x.isFinite := by
  rw [Bool.eq_iff_iff, isFinite_iff, Ne, exponentOf_eq_iff]
  exact isFinite_ofBits x.toBits

/-- Bits below those of infinity, with a sign, stand for a finite double. -/
theorem isFinite_withSign (negative : Bool) {bits : Nat} (h : bits < infinityBits) :
    (withSign negative bits).isFinite = true := by
  have hbits : bits < 2047 * 2 ^ 52 := h
  have hexponent : ∀ n, n = bits ∨ n = 2 ^ 63 + bits → exponentOf (UInt64.ofNat n) ≠ -1#11 := by
    intro n hn
    rw [Ne, exponentOf_eq_iff, UInt64.toNat_ofNat']
    omega
  have hfinite : ∀ n, n = bits ∨ n = 2 ^ 63 + bits → (Float.ofBits (UInt64.ofNat n)).isFinite = true := by
    intro n hn
    rw [isFinite_iff, toBits_ofBits (hexponent n hn)]
    exact hexponent n hn
  cases negative with
  | false => exact hfinite _ (.inl rfl)
  | true => exact hfinite _ (.inr rfl)

end Binary64

/-! ## Reading

All texts of numbers end in `nearestPower`, which gives up where the nearest double would be
infinite. Only the names of special values are read otherwise, and none of them begins with a digit. -/

/-- What is nearest to a fraction is finite, if there is anything. -/
theorem isFinite_of_nearestPower {negative : Bool} {m base : Nat} {e : Int} {x : Float}
    (h : nearestPower negative m base e = .ok x) : x.isFinite = true := by
  unfold nearestPower at h
  dsimp only at h
  generalize (if 0 ≤ e then _ else _ : Nat) = bits at h
  by_cases hbits : Binary64.infinityBits ≤ bits
  · rw [if_pos hbits] at h
    cases h
  · rw [if_neg hbits] at h
    cases h
    exact Binary64.isFinite_withSign negative (Nat.lt_of_not_le hbits)

/-- What is read is finite, if anything is. -/
structure Bounded (r : Except Fault Float) : Prop where
  finite : ∀ x, r = .ok x → x.isFinite = true

/-- The double nearest to a fraction is bounded; all forms of numbers end in it. -/
theorem bounded_nearestPower (negative : Bool) (m base : Nat) (e : Int) :
    Bounded (nearestPower negative m base e) := ⟨fun _ => isFinite_of_nearestPower⟩

/-- A number that is read behind something else is as finite as it was. -/
theorem bounded_bind {α : Type} {x : Except Fault α} {f : α → Except Fault Float}
    (h : ∀ a, Bounded (f a)) : Bounded (x >>= f) := by
  cases x with
  | error e => exact ⟨fun x hx => nomatch hx⟩
  | ok a => exact h a

/-- A decimal number is read as a finite double. -/
theorem bounded_readDecimalFloat (negative : Bool) (s : List Char) :
    Bounded (readDecimalFloat negative s) := by
  refine bounded_bind fun ⟨f, rest⟩ => ?_
  dsimp only
  split <;> exact bounded_bind fun e => bounded_nearestPower ..

/-- A hexadecimal number is read as a finite double. -/
theorem bounded_readHexFloat (negative : Bool) (s : List Char) :
    Bounded (readHexFloat negative s) := by
  refine bounded_bind fun ⟨f, rest⟩ => ?_
  dsimp only
  split <;> exact bounded_bind fun e => bounded_nearestPower ..

/-- A number without a sign is read as a finite double, decimal or hexadecimal. -/
theorem bounded_readUnsignedFloat (negative : Bool) (s : List Char) :
    Bounded (readUnsignedFloat negative s) := by
  unfold readUnsignedFloat
  split
  · exact bounded_readHexFloat ..
  · exact bounded_readHexFloat ..
  · exact bounded_readDecimalFloat ..

/-- Only the names of special values are read as such. -/
theorem bounded_readFloat {s : List Char} (h : specialFloat? s = none) : Bounded (readFloat s) := by
  unfold readFloat
  rw [h]
  dsimp only
  split <;> exact bounded_readUnsignedFloat ..

/-- No special value has a name that begins with a digit. -/
theorem specialFloat?_of_digit {c : Char} (hc : '0' ≤ c ∧ c ≤ '9') (s : List Char) :
    specialFloat? (c :: s) = none := by
  have hlower : c.toLower = c := by
    unfold Char.toLower
    refine dif_neg fun hupper => ?_
    exact absurd (UInt32.le_trans hupper.1 hc.2) (by decide)
  -- each name has a first letter that is no digit, and a digit is its own small letter
  have hother : ∀ d rest, d < '0' ∨ '9' < d →
      String.ofList ((c :: s).map Char.toLower) ≠ String.ofList (d :: rest) := by
    intro d rest hd heq
    rw [String.ofList_inj, List.map_cons, hlower] at heq
    obtain ⟨rfl, -⟩ := List.cons.inj heq
    obtain hlow | hhigh := hd
    · exact absurd hc.1 (Char.not_le.mpr hlow)
    · exact absurd hc.2 (Char.not_le.mpr hhigh)
  unfold specialFloat?
  split
  · exact absurd ‹_› (hother 'i' ['n', 'f'] (by decide))
  · exact absurd ‹_› (hother 'i' ['n', 'f', 'i', 'n', 'i', 't', 'y'] (by decide))
  · exact absurd ‹_› (hother '+' ['i', 'n', 'f'] (by decide))
  · exact absurd ‹_› (hother '+' ['i', 'n', 'f', 'i', 'n', 'i', 't', 'y'] (by decide))
  · exact absurd ‹_› (hother '-' ['i', 'n', 'f'] (by decide))
  · exact absurd ‹_› (hother '-' ['i', 'n', 'f', 'i', 'n', 'i', 't', 'y'] (by decide))
  · exact absurd ‹_› (hother 'n' ['a', 'n'] (by decide))
  · rfl

/-! ## Texts

The text of a float always has a point: a float is never taken for an integer when it is read back. -/

/-- Digits around a point have the point among them, wherever it stands. -/
theorem point_mem_positional (digits : List Char) (point : Int) :
    '.' ∈ Binary64.positional digits point := by
  unfold Binary64.positional
  split
  · simp
  · split <;> simp

/-- The text of a finite double has a point; zero is no exception. -/
theorem point_mem_ofFloat {x : Float} (h : x.isFinite = true) : '.' ∈ (ofFloat x).toList := by
  rw [← Binary64.isFinite_ofFloat] at h
  unfold ofFloat
  cases hx : Binary64.ofFloat x with
  | finite negative m q =>
    -- the sign in front makes no difference
    have hbody : ∀ body : String, '.' ∈ body.toList →
        '.' ∈ (if negative then "-" ++ body else body).toList := by
      intro body hpoint
      split
      · rw [String.toList_append]
        exact List.mem_append_right _ hpoint
      · exact hpoint
    refine hbody _ ?_
    split
    · decide +kernel
    · rw [String.toList_ofList]
      exact point_mem_positional ..
  | infinite negative => rw [hx] at h; cases h
  | nan => rw [hx] at h; cases h

end ScriptPir.Numeral

/-!
# Words as text

The decimal numeral of a word of 64 bits is made in 64-bit arithmetic: its digits and then its sign are put
into a buffer of twenty bytes, from the last place to the first.
-/

namespace ScriptPir.Numeral

/-- Twenty bytes that are filled from the last place to the first. Those from `start` on are in use. -/
structure Buffer where
  bytes : Vector UInt8 20 := .replicate 20 0
  start : Nat := 20
  start_le : start ≤ 20 := by decide
deriving DecidableEq, Repr

namespace Buffer

/-- Puts a byte before those in use. A full buffer has no place for it. -/
def put? (b : Buffer) (byte : UInt8) : Option Buffer :=
  if 0 < b.start then
    have := b.start_le
    some ⟨b.bytes.set (b.start - 1) byte, b.start - 1, by omega⟩
  else none

/-- The bytes in use, which are ASCII. -/
def chars (b : Buffer) : List Char := (b.bytes.toList.drop b.start).map Char.ofUInt8

theorem put?_eq_none_iff {b : Buffer} {byte : UInt8} : b.put? byte = none ↔ b.start = 0 := by
  unfold put?
  split <;> simp <;> omega

theorem start_put? {b b' : Buffer} {byte : UInt8} (h : b.put? byte = some b') : b'.start + 1 = b.start := by
  unfold put? at h
  split at h
  · cases h
    dsimp only
    omega
  · cases h

theorem chars_put? {b b' : Buffer} {byte : UInt8} (h : b.put? byte = some b') :
    b'.chars = Char.ofUInt8 byte :: b.chars := by
  unfold put? at h
  split at h
  · cases h
    have hlt : b.start - 1 < b.bytes.toList.length := by
      rw [Vector.length_toList]
      have := b.start_le
      omega
    simp only [chars, Vector.toList_set]
    rw [List.drop_eq_getElem_cons (by rwa [List.length_set]), List.getElem_set_self, List.drop_set_of_lt (by omega),
      Nat.sub_add_cancel (by omega), List.map_cons]
  · cases h

@[simp] theorem chars_empty : ({} : Buffer).chars = [] := rfl

theorem length_chars_add_start (b : Buffer) : b.chars.length + b.start = 20 := by
  have := b.start_le
  simp only [chars, List.length_map, List.length_drop, Vector.length_toList]
  omega

/-- The last decimal digit of a word that is not negative, in ASCII. -/
def digit (x : Int64) : UInt8 := (0x30 + x % 10).toUInt64.toUInt8

/-- Puts the decimal digits of a word before what is in use, the last one first. Only a positive word has any. -/
def putDigits? (x : Int64) (b : Buffer) : Option Buffer :=
  if 0 < x then
    match h : b.put? (digit x) with
    | some b' => putDigits? (x / 10) b'
    | none => none
  else some b
termination_by b.start
decreasing_by
  rw [← start_put? h]
  exact Nat.lt_succ_self _

/--
A buffer that holds the digits of the magnitude of a word and its sign. The least word is its own negative,
so its magnitude is not positive and has no digits.
-/
def ofWord? (x : Int64) : Option Buffer := do
  let b ← putDigits? (if x < 0 then -x else x) {}
  if x < 0 then b.put? '-'.toUInt8 else return b

end Buffer

/-- The decimal numeral of a word; that of the least word is its sign alone. No word takes more than the buffer has. -/
def ofWord (x : Int64) : String :=
  if x = 0 then "0"
  else match Buffer.ofWord? x with
    | some b => String.ofList b.chars
    | none => ""

end ScriptPir.Numeral

import Mathlib.Data.Nat.Bitwise

/-!
# The bits of words

Sketches keep their data in words of 64 bits and find their way there by shifts. What a shift does
is said in numbers here, and two words are equal if their bits are.
-/

namespace KeyHeat.Word

variable {count : Nat}

theorem toNat_count_mod (hcount : count < 64) : (UInt64.ofNat count).toNat % 64 = count := by
  rw [UInt64.toNat_ofNat']
  omega

theorem toNat_shiftRight (word : UInt64) (hcount : count < 64) :
    (word >>> UInt64.ofNat count).toNat = word.toNat / 2 ^ count := by
  rw [UInt64.toNat_shiftRight, toNat_count_mod hcount, Nat.shiftRight_eq_div_pow]

/-- The word in which one bit is set. -/
theorem toNat_one_shiftLeft (hcount : count < 64) :
    ((1 : UInt64) <<< UInt64.ofNat count).toNat = 2 ^ count := by
  rw [UInt64.toNat_shiftLeft, toNat_count_mod hcount, UInt64.toNat_one, Nat.one_shiftLeft]
  exact Nat.mod_eq_of_lt (Nat.pow_lt_pow_right (by decide) hcount)

theorem testBit_eq_false (word : UInt64) {bit : Nat} (hbit : 64 ≤ bit) :
    word.toNat.testBit bit = false :=
  Nat.testBit_eq_false_of_lt (word.toNat_lt.trans_le (Nat.pow_le_pow_right (by decide) hbit))

theorem eq_of_testBit_eq {word other : UInt64}
    (h : ∀ bit < 64, word.toNat.testBit bit = other.toNat.testBit bit) : word = other := by
  apply UInt64.toNat_inj.1
  apply Nat.eq_of_testBit_eq
  intro bit
  rcases Nat.lt_or_ge bit 64 with hlt | hge
  · exact h bit hlt
  · rw [testBit_eq_false word hge, testBit_eq_false other hge]

end KeyHeat.Word

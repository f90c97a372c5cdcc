import KeyHeat.Key
import KeyHeat.Proofs.Sketch.Word
import Mathlib.Data.FinEnum
import Mathlib.Data.Fintype.EquivFin

/-!
# The seeded hash of a word is a bijection

Every step from a word to its hash can be undone: additions and exclusive-ors with a known word,
multiplications by an odd factor, rotations, and the exclusive-or of a word with itself shifted.
Hence no two words have the same hash under a seed, or the same fingerprint.
-/

namespace KeyHeat.Hash

/-! ## Shifts -/

/-- Only the zero word stays the same when it is shifted. -/
theorem eq_zero_of_shiftRight_eq {word count : UInt64} (hcount : count.toNat % 64 ≠ 0)
    (h : word >>> count = word) : word = 0 := by
  by_contra hne
  have hpos : 0 < word.toNat := Nat.pos_of_ne_zero fun hzero ↦ hne (UInt64.toNat_inj.1 hzero)
  have hlt : word.toNat / 2 ^ (count.toNat % 64) < word.toNat :=
    Nat.div_lt_self hpos (Nat.one_lt_two_pow hcount)
  rw [← Nat.shiftRight_eq_div_pow, ← UInt64.toNat_shiftRight, h] at hlt
  exact Nat.lt_irrefl _ hlt

/-- From the low end on, the bits of a word that stays the same come from zeros shifted in. -/
theorem eq_zero_of_shiftLeft_eq {word count : UInt64} (hcount : count.toNat % 64 ≠ 0)
    (h : word <<< count = word) : word = 0 := by
  apply Word.eq_of_testBit_eq
  intro bit
  induction bit using Nat.strongRecOn with
  | ind bit ih =>
    intro hbit
    rw [← h, UInt64.toNat_shiftLeft, Nat.testBit_mod_two_pow, Nat.testBit_shiftLeft]
    rcases Nat.lt_or_ge bit (count.toNat % 64) with hlow | hhigh
    · simp [Nat.not_le.2 hlow]
    · have hbelow : bit - count.toNat % 64 < bit := by omega
      simp [ih _ hbelow (hbelow.trans hbit)]

/-- The exclusive-or with a linear image is linear, so it is enough that only zero goes to zero. -/
theorem injective_xor_of_linear {shift : UInt64 → UInt64}
    (hlinear : ∀ first second, shift (first ^^^ second) = shift first ^^^ shift second)
    (hzero : ∀ word, shift word = word → word = 0) :
    Function.Injective fun word ↦ word ^^^ shift word := by
  intro first second heq
  have hboth : (first ^^^ shift first) ^^^ (second ^^^ shift second) = 0 :=
    UInt64.xor_eq_zero_iff.2 heq
  have hsame : shift (first ^^^ second) = first ^^^ second := by
    rw [hlinear, ← UInt64.xor_eq_zero_iff, ← hboth]
    ac_rfl
  exact UInt64.xor_eq_zero_iff.1 (hzero _ hsame)

theorem injective_xor_shiftRight (count : UInt64) (hcount : count.toNat % 64 ≠ 0) :
    Function.Injective fun word : UInt64 ↦ word ^^^ (word >>> count) := by
  apply injective_xor_of_linear
  · intro first second
    exact UInt64.shiftRight_xor
  · intro word
    exact eq_zero_of_shiftRight_eq hcount

theorem injective_xor_shiftLeft (count : UInt64) (hcount : count.toNat % 64 ≠ 0) :
    Function.Injective fun word : UInt64 ↦ word ^^^ (word <<< count) := by
  apply injective_xor_of_linear
  · intro first second
    exact UInt64.shiftLeft_xor
  · intro word
    exact eq_zero_of_shiftLeft_eq hcount

/-! ## Products -/

/-- A factor that has an inverse can be taken out again. -/
theorem injective_mul_right {factor inverse : UInt64} (h : factor * inverse = 1) :
    Function.Injective fun word : UInt64 ↦ word * factor := by
  intro first second heq
  calc
    first = first * factor * inverse := by rw [UInt64.mul_assoc, h, UInt64.mul_one]
    _ = second * factor * inverse := congrArg (· * inverse) heq
    _ = second := by rw [UInt64.mul_assoc, h, UInt64.mul_one]

theorem injective_absorbWord (state : UInt64) : Function.Injective (absorbWord state) := by
  have hinverse : (0xf1357aea2e62a9c5 : UInt64) * 0x781494a55daaed0d = 1 := by decide
  intro first second heq
  exact (UInt64.add_right_inj state).1 (injective_mul_right hinverse heq)

/-! ## Rotations -/

section Rotations

variable {count : UInt64} (hpos : 0 < count) (hlt : count < 64)

include hpos hlt

/-- A rotation takes each bit to its place. -/
theorem testBit_rotateLeft (word : UInt64) {bit : Nat} (hbit : bit < 64) :
    (rotateLeft word count).toNat.testBit ((bit + count.toNat) % 64) = word.toNat.testBit bit := by
  have hpos' : 0 < count.toNat := UInt64.lt_iff_toNat_lt.1 hpos
  have hlt' : count.toNat < 64 := UInt64.lt_iff_toNat_lt.1 hlt
  have hrest : (64 - count).toNat = 64 - count.toNat :=
    UInt64.toNat_sub_of_le _ _ (UInt64.le_of_lt hlt)
  have hleft : count.toNat % 64 = count.toNat := Nat.mod_eq_of_lt hlt'
  have hright : (64 - count.toNat) % 64 = 64 - count.toNat := Nat.mod_eq_of_lt (by omega)
  simp only [rotateLeft, UInt64.toNat_or, UInt64.toNat_shiftRight, UInt64.toNat_shiftLeft, hrest,
    hleft, hright, Nat.testBit_or, Nat.testBit_shiftRight, Nat.testBit_mod_two_pow,
    Nat.testBit_shiftLeft]
  rcases Nat.lt_or_ge (bit + count.toNat) 64 with hlow | hhigh
  · have hout : word.toNat.testBit (64 - count.toNat + (bit + count.toNat)) = false :=
      Word.testBit_eq_false word (by omega)
    simp [Nat.mod_eq_of_lt hlow, hlow, hout]
  · have hwrap : (bit + count.toNat) % 64 = bit + count.toNat - 64 := by omega
    have hback : 64 - count.toNat + (bit + count.toNat - 64) = bit := by omega
    have hbelow : ¬count.toNat ≤ bit + count.toNat - 64 := by omega
    simp [hwrap, hback, hbelow]

theorem injective_rotateLeft : Function.Injective (rotateLeft · count) := by
  intro first second heq
  dsimp only at heq
  apply Word.eq_of_testBit_eq
  intro bit hbit
  rw [← testBit_rotateLeft hpos hlt first hbit, heq, testBit_rotateLeft hpos hlt second hbit]

end Rotations

/-! ## The finaliser -/

theorem injective_mix64 : Function.Injective mix64 := by
  have hfirst : (0xbf58476d1ce4e5b9 : UInt64) * 0x96de1b173f119089 = 1 := by decide
  have hsecond : (0x94d049bb133111eb : UInt64) * 0x319642b2d24d8ec3 = 1 := by decide
  have hone := (injective_mul_right hfirst).comp (injective_xor_shiftRight 30 (by decide))
  have htwo := (injective_mul_right hsecond).comp (injective_xor_shiftRight 27 (by decide))
  exact (injective_xor_shiftRight 31 (by decide)).comp (htwo.comp hone)

theorem bijective_mix64 : Function.Bijective mix64 :=
  Finite.injective_iff_bijective.1 injective_mix64

end KeyHeat.Hash

namespace KeyHeat

/-- Distinct words have distinct hashes under the same seed, so every word is a hash. -/
theorem bijective_seededHash (seed : UInt64) :
    Function.Bijective (seededHash seed : UInt64 → UInt64) := by
  apply Finite.injective_iff_bijective.1
  intro first second heq
  have hrotated := (UInt64.xor_left_inj seed).1 (Hash.injective_mix64 heq)
  have habsorbed := Hash.injective_rotateLeft (by decide) (by decide) hrotated
  exact Hash.injective_absorbWord _ habsorbed

theorem injective_fingerprint : Function.Injective (fingerprint : UInt64 → UInt64) :=
  (bijective_seededHash _).injective

end KeyHeat

import KeyHeat.Proofs.Number.Finite

/-!
# Words as parts of one

A word becomes a double with its leading digit in place, rounded to fifty-three digits. The
greatest words are rounded up to two to the power 64. A product with a power of two is not rounded
at all, so that a word divided by two to the power 64 is below one unless it is one of these.
-/

namespace KeyHeat.Number

open Float.Model Float.Model.UnpackedFloat

/-! ## Products with a power of two -/

/-- Zeros that are shifted out of a mantissa leave nothing behind. -/
theorem shiftRight_mul_two_pow (m k : Nat) :
    ExtendedMantissa.ofMantissaAndAccuracy (m * 2 ^ k) .exact >>> k =
      ExtendedMantissa.ofMantissaAndAccuracy m .exact := by
  induction k generalizing m with
  | zero => rw [Nat.pow_zero, Nat.mul_one]; rfl
  | succ k ih =>
    have hstep : ExtendedMantissa.ofMantissaAndAccuracy (m * 2 ^ (k + 1)) .exact >>> (k + 1) =
        (ExtendedMantissa.ofMantissaAndAccuracy (m * 2 ^ (k + 1)) .exact >>> k).shiftRightOne := rfl
    have hfactor : m * 2 ^ (k + 1) = m * 2 * 2 ^ k := by
      rw [Nat.pow_succ, Nat.mul_comm (2 ^ k), Nat.mul_assoc]
    rw [hstep, hfactor, ih]
    simp [ExtendedMantissa.shiftRightOne, ExtendedMantissa.ofMantissaAndAccuracy]

theorem excess_eq_zero {m : Nat} {e : Int} (hm : m.log2 = 52) (he : -1074 ≤ e) :
    excess m e = 0 := by
  unfold excess
  omega

/-- A mantissa of fifty-three digits is not rounded, whatever zeros are behind it. -/
theorem roundWithAccuracy_mul_two_pow (sign : Sign) {m : Nat} (k : Nat) {e : Int} (h : 0 < m)
    (hm : m.log2 = 52) (he : -1074 ≤ e + k) :
    roundWithAccuracy Format.binary64 sign (m * 2 ^ k) e .exact = .finite sign m (e + k) h := by
  have hlog : (m * 2 ^ k).log2 = 52 + k := by
    rw [← Nat.shiftLeft_eq, log2_shiftLeft (by omega), hm]
  have hexcess : excess (m * 2 ^ k) e = k := by
    unfold excess
    omega
  have hrounded : rounded (m * 2 ^ k) e .exact = m := by
    rw [rounded_eq, hexcess, shiftRight_mul_two_pow]
    rfl
  have hlast : excess m (e + k) = 0 := excess_eq_zero hm he
  obtain ⟨hzero, -⟩ | ⟨h', hround⟩ := roundWithAccuracy_eq sign hrounded
  · rw [hexcess, hlast, Nat.pow_zero, Nat.div_one] at hzero
    omega
  · simpa only [hexcess, hlast, Nat.pow_zero, Nat.div_one, Int.natCast_zero, Int.add_zero] using
      hround

theorem mul_two_pow (s₁ s₂ : Sign) {m : Nat} {e₁ e₂ : Int} (h : 0 < m) (hm : m.log2 = 52)
    (he : -1126 ≤ e₁ + e₂) :
    UnpackedFloat.mul Format.binary64 (.finite s₁ m e₁ h) (.finite s₂ (2 ^ 52) e₂ (by decide)) =
      .finite (s₁ * s₂) m (e₁ + e₂ + 52) h :=
  roundWithAccuracy_mul_two_pow (s₁ * s₂) 52 h hm (by omega)

/-! ## Words -/

/-- A mantissa that is odd is moved up if the first digit shifted out of it is one. -/
theorem roundedMantissa_of_odd {em : ExtendedMantissa} (hodd : em.mantissa % 2 = 1) :
    em.roundedMantissa = em.mantissa + em.roundBit.toNat := by
  obtain ⟨m, roundBit, stickyBit⟩ := em
  change m % 2 = 1 at hodd
  cases roundBit <;> cases stickyBit <;>
    simp [ExtendedMantissa.roundedMantissa, ExtendedMantissa.accuracy,
      Accuracy.roundToNearestEven, hodd]

theorem roundBit_shiftRight (em : ExtendedMantissa) (k : Nat) :
    (em >>> (k + 1)).roundBit = (em.mantissa / 2 ^ k % 2 != 0) := by
  rw [← mantissa_shiftRight]
  rfl

/-- From here on words are rounded up to two to the power 64. This one is halfway between it and
the double before it, which is odd. -/
def roundingLimit : Nat := 18446744073709550592

section
variable {n : Nat}

theorem log2_of_two_pow_le (hlow : 2 ^ 63 ≤ n) (hhigh : n < 2 ^ 64) : n.log2 = 63 :=
  (Nat.log2_eq_iff (by omega)).mpr ⟨hlow, hhigh⟩

theorem excess_of_two_pow_le (hlow : 2 ^ 63 ≤ n) (hhigh : n < 2 ^ 64) : excess n 0 = 11 := by
  have hlog := log2_of_two_pow_le hlow hhigh
  unfold excess
  omega

/-- With an odd mantissa before them, the first of the eleven digits lost decides. -/
theorem rounded_of_odd (hlow : 2 ^ 63 ≤ n) (hhigh : n < 2 ^ 64) (hodd : n / 2 ^ 11 % 2 = 1) :
    rounded n 0 .exact = n / 2 ^ 11 + n / 2 ^ 10 % 2 := by
  have hmantissa : (ExtendedMantissa.ofMantissaAndAccuracy n .exact >>> 11).mantissa =
      n / 2 ^ 11 := mantissa_shiftRight _ _
  have hbit : (ExtendedMantissa.ofMantissaAndAccuracy n .exact >>> 11).roundBit =
      (n / 2 ^ 10 % 2 != 0) := roundBit_shiftRight _ _
  rw [rounded_eq, excess_of_two_pow_le hlow hhigh,
    roundedMantissa_of_odd (by rw [hmantissa]; exact hodd), hmantissa, hbit]
  rcases Nat.mod_two_eq_zero_or_one (n / 2 ^ 10) with hclear | hset
  · rw [hclear]
    rfl
  · rw [hset]
    rfl

theorem rounded_eq_of_le (hlow : roundingLimit ≤ n) (hhigh : n < 2 ^ 64) :
    rounded n 0 .exact = 2 ^ 53 := by
  have hlimit : roundingLimit = 2 ^ 64 - 2 ^ 10 := by decide
  rw [rounded_of_odd (by omega) hhigh (by omega)]
  omega

theorem rounded_lt_of_lt (hlow : 2 ^ 63 ≤ n) (hhigh : n < roundingLimit) :
    rounded n 0 .exact < 2 ^ 53 := by
  have hlimit : roundingLimit = 2 ^ 64 - 2 ^ 10 := by decide
  by_cases hlast : n / 2 ^ 11 = 2 ^ 53 - 1
  · rw [rounded_of_odd hlow (by omega) (by omega)]
    omega
  · have hle := (rounded_bounds n 0 .exact).2
    rw [excess_of_two_pow_le hlow (by omega)] at hle
    omega

/-- A word with its first bit set loses eleven digits, or twelve if it is rounded up to the next
power of two. -/
theorem round_of_two_pow_le {r : Nat} (hlow : 2 ^ 63 ≤ n) (hhigh : n < 2 ^ 64)
    (hr : rounded n 0 .exact = r) (hlast : r / 2 ^ excess r 11 ≠ 0) :
    ∃ h, UnpackedFloat.round Format.binary64 .positive n 0 =
      .finite .positive (r / 2 ^ excess r 11) (11 + excess r 11) h := by
  have hexcess : (0 : Int) + excess n 0 = 11 := by
    rw [excess_of_two_pow_le hlow hhigh]
    rfl
  have hround := roundWithAccuracy_eq .positive hr
  rw [hexcess] at hround
  rw [round_eq, log2_of_two_pow_le hlow hhigh]
  exact hround.resolve_left fun hzero ↦ hlast hzero.1

theorem round_eq_of_le (hlow : roundingLimit ≤ n) (hhigh : n < 2 ^ 64) :
    UnpackedFloat.round Format.binary64 .positive n 0 =
      .finite .positive (2 ^ 52) 12 (by decide) := by
  have hlimit : roundingLimit = 2 ^ 64 - 2 ^ 10 := by decide
  obtain ⟨_, hround⟩ :=
    round_of_two_pow_le (by omega) hhigh (rounded_eq_of_le hlow hhigh) (by decide)
  exact hround

theorem round_of_lt (hpos : 0 < n) (hhigh : n < roundingLimit) :
    ∃ m e h, UnpackedFloat.round Format.binary64 .positive n 0 = .finite .positive m e h ∧
      m.log2 = 52 ∧ -52 ≤ e ∧ e ≤ 11 := by
  have hlimit : roundingLimit = 2 ^ 64 - 2 ^ 10 := by decide
  by_cases hlow : 2 ^ 63 ≤ n
  · have hbelow := rounded_lt_of_lt hlow hhigh
    have hleast := (rounded_bounds n 0 .exact).1
    rw [excess_of_two_pow_le hlow (by omega)] at hleast
    generalize hr : rounded n 0 .exact = r at hbelow hleast
    have hlog : r.log2 = 52 := (Nat.log2_eq_iff (by omega)).mpr ⟨by omega, hbelow⟩
    have hlast : excess r 11 = 0 := excess_eq_zero hlog (by decide)
    obtain ⟨h, hround⟩ := round_of_two_pow_le hlow (by omega) hr (by rw [hlast]; omega)
    simp only [hlast, Nat.pow_zero, Nat.div_one] at hround
    exact ⟨r, _, _, hround, hlog, by decide, by decide⟩
  · have hlog : n.log2 < 63 := (Nat.log2_lt (by omega)).mpr (by omega)
    have hshifted : (n <<< (52 - n.log2)).log2 = n.log2 + (52 - n.log2) :=
      log2_shiftLeft (by omega) _
    obtain ⟨m, e, h, hround, hm, hleast, hmost⟩ := roundWithAccuracy_normal .positive .exact
      (show 52 ≤ (n <<< (52 - n.log2)).log2 by omega)
      (show -1022 ≤ (n <<< (52 - n.log2)).log2 + (-(52 - n.log2 : Nat) : Int) by omega)
    rw [round_eq]
    exact ⟨m, e, h, hround, hm, by omega, by omega⟩

end

/-! ## Parts of one -/

/-- A product of doubles in the range is exact if one of them is a power of two. -/
theorem unpack_mul_two_pow {x y : Float} {s₁ s₂ : Sign} {m : Nat} {e₁ e₂ : Int} {h : 0 < m}
    {h' : 0 < 2 ^ 52} (hx : x.toModel.unpack = .finite s₁ m e₁ h)
    (hy : y.toModel.unpack = .finite s₂ (2 ^ 52) e₂ h') (hm : m.log2 = 52)
    (hlow : -1126 ≤ e₁ + e₂) (hhigh : e₁ + e₂ ≤ 919) :
    (x * y).toModel.unpack = .finite (s₁ * s₂) m (e₁ + e₂ + 52) h := by
  have hproduct : (x * y).toModel.unpack = (Float.Model.pack
      (UnpackedFloat.mul Format.binary64 x.toModel.unpack y.toModel.unpack)).unpack := rfl
  rw [hproduct, hx, hy, mul_two_pow s₁ s₂ h hm hlow]
  exact unpack_pack_normal _ h hm (by omega) (by omega)

/-- A word as a part of two to the power 64, the double nearest to the greatest word. -/
def part (word : UInt64) : Float :=
  word.toFloat * (1 / (18446744073709551615 : UInt64).toFloat)

theorem scale_eq :
    1 / (18446744073709551615 : UInt64).toFloat = Float.ofBits 0x3BF0000000000000 := by
  decide

/-- The greatest words are rounded up to one. -/
theorem part_eq_one {word : UInt64} (h : roundingLimit ≤ word.toNat) : part word = 1 := by
  have hpos : 0 < word.toNat := Nat.lt_of_lt_of_le (by decide) h
  have hword : word.toFloat = Float.ofBits 0x43F0000000000000 := by
    rw [toFloat_eq hpos, round_eq_of_le h word.toNat_lt]
    rfl
  rw [part, hword]
  decide +kernel

/-- The others are below one, and stay so when they are multiplied by one. -/
theorem part_lt_one {word : UInt64} (h : word.toNat < roundingLimit) :
    part word < 1 ∧ part word * 1 < 1 := by
  by_cases hpos : 0 < word.toNat
  · obtain ⟨m, e, hm0, hround, hm, hlow, hhigh⟩ := round_of_lt hpos h
    have hword : word.toFloat.toModel.unpack = .finite .positive m e hm0 := by
      rw [toFloat_eq hpos, hround]
      exact unpack_pack_normal _ hm0 hm (by omega) (by omega)
    have hscale : (Float.ofBits 0x3BF0000000000000).toModel.unpack =
        .finite .positive (2 ^ 52) (-116) (by decide) := rfl
    have hpart := unpack_mul_two_pow hword hscale hm (by omega) (by omega)
    have hsame := unpack_mul_two_pow hpart unpack_one hm (by omega) (by omega)
    have hless (e' : Int) (he' : e' < -52) :
        UnpackedFloat.compare (.finite .positive m e' hm0)
          (.finite .positive (2 ^ 52) (-52) (by decide)) = some .lt := by
      simp only [UnpackedFloat.compare, Int.compare_eq_lt.mpr he']
      rfl
    rw [lt_iff, lt_iff, unpack_one]
    constructor
    · rw [part, scale_eq, hpart]
      exact hless _ (by omega)
    · rw [part, scale_eq, hsame]
      exact hless _ (by omega)
  · have hzero : word = 0 := UInt64.toNat.inj (Nat.eq_zero_of_not_pos hpos)
    rw [hzero]
    decide

theorem part_lt_one_iff {word : UInt64} : part word < 1 ↔ word.toNat < roundingLimit := by
  constructor
  · intro hbelow
    by_contra hword
    rw [part_eq_one (Nat.le_of_not_lt hword)] at hbelow
    exact absurd hbelow (by decide +kernel)
  · exact fun hword ↦ (part_lt_one hword).1

end KeyHeat.Number

import KeyHeat.Number.Convert
import Mathlib

/-!
# Rounding of doubles

Doubles are computed with by unpacking them into a sign, a mantissa and an exponent, and packing
the rounded result. Here is what is needed to tell numbers from infinities and from zero: a rounded
mantissa has at most fifty-three digits, its exponent is at most one above the one that these
digits call for, and it vanishes only if the number was below the least positive double.
-/

namespace KeyHeat.Number

open Float.Model Float.Model.UnpackedFloat

/-! ## Shifting -/

theorem log2_le_of_le {n bound : Nat} (h : n ≤ 2 ^ bound) : n.log2 ≤ bound := by
  rw [Nat.log2_eq_log_two]
  exact (Nat.log_mono_right h).trans_eq (Nat.log_pow (by decide) bound)

theorem log2_div_two_pow (n k : Nat) : (n / 2 ^ k).log2 = n.log2 - k := by
  rw [Nat.log2_eq_log_two, Nat.log2_eq_log_two, Nat.log_div_base_pow]

theorem targetExponent_eq (m : Nat) (e : Int) :
    Format.binary64.targetExponent (totalExponent m e) = max (m.log2 + e - 52) (-1074) := by
  have htarget : Format.binary64.targetExponent (totalExponent m e) =
      max (m.log2 + 1 + e - 53) (-1074) := rfl
  rw [htarget]
  omega

/-- By how much a mantissa is shifted to the right to fit the format. -/
def excess (m : Nat) (e : Int) : Nat := (max (m.log2 + e - 52) (-1074) - e).toNat

theorem mantissa_shiftRight (em : ExtendedMantissa) (k : Nat) :
    (em >>> k).mantissa = em.mantissa / 2 ^ k := by
  induction k generalizing em with
  | zero => exact (Nat.div_one _).symm
  | succ k ih =>
    have hstep : (em >>> (k + 1)).mantissa = (em >>> k).mantissa / 2 := rfl
    rw [hstep, ih, Nat.div_div_eq_div_mul, Nat.pow_succ]

theorem shiftToTargetExponent_eq (m : Nat) (e : Int) (accuracy : Accuracy) :
    (shiftToTargetExponent Format.binary64 m e accuracy).1.mantissa = m / 2 ^ excess m e ∧
      (shiftToTargetExponent Format.binary64 m e accuracy).2 = e + excess m e := by
  have hmantissa : (ExtendedMantissa.ofMantissaAndAccuracy m accuracy).mantissa = m := by
    cases accuracy with
    | exact => rfl
    | inexact ordering => cases ordering <;> rfl
  simp only [shiftToTargetExponent, shiftToExponent, targetExponent_eq, mantissa_shiftRight,
    hmantissa, excess, and_self]

theorem roundedMantissa_bounds (em : ExtendedMantissa) :
    em.mantissa ≤ em.roundedMantissa ∧ em.roundedMantissa ≤ em.mantissa + 1 := by
  obtain ⟨m, roundBit, stickyBit⟩ := em
  cases roundBit <;> cases stickyBit <;>
    simp only [ExtendedMantissa.roundedMantissa, ExtendedMantissa.accuracy,
      Accuracy.roundToNearestEven] <;> omega

/-- What is left of a mantissa fits the format. -/
theorem div_excess_lt (m : Nat) (e : Int) : m / 2 ^ excess m e < 2 ^ 53 := by
  rw [Nat.div_lt_iff_lt_mul (Nat.two_pow_pos _), ← Nat.pow_add]
  have hlog : m.log2 + 1 ≤ 53 + excess m e := by
    unfold excess
    omega
  exact Nat.lt_of_lt_of_le Nat.lt_log2_self (Nat.pow_le_pow_right (by decide) hlog)

/-- A mantissa does not vanish unless the number is below the least positive double. -/
theorem div_excess_pos {m : Nat} {e : Int} (hm : m ≠ 0) (he : -1074 ≤ m.log2 + e) :
    0 < m / 2 ^ excess m e := by
  have hlog : excess m e ≤ m.log2 := by
    unfold excess
    omega
  have hle : 2 ^ excess m e ≤ m :=
    Nat.le_trans (Nat.pow_le_pow_right (by decide) hlog) (Nat.log2_self_le hm)
  exact Nat.div_pos hle (Nat.two_pow_pos _)

/-! ## Rounding -/

/-- A number of the format whose exponent is at most `bound`. -/
inductive Bounded (bound : Int) : UnpackedFloat → Prop
  | zero {sign : Sign} : Bounded bound (.zero sign)
  | finite {sign : Sign} {m : Nat} {e : Int} {h : 0 < m} (hm : m < 2 ^ 53) (hlow : -1074 ≤ e)
    (hhigh : e ≤ bound) : Bounded bound (.finite sign m e h)

/-- A mantissa that is shifted to fit the format, and moved up if it is nearer to the next one. -/
def rounded (m : Nat) (e : Int) (accuracy : Accuracy) : Nat :=
  (shiftToTargetExponent Format.binary64 m e accuracy).1.roundedMantissa

theorem rounded_eq (m : Nat) (e : Int) (accuracy : Accuracy) :
    rounded m e accuracy =
      (ExtendedMantissa.ofMantissaAndAccuracy m accuracy >>> excess m e).roundedMantissa := by
  simp only [rounded, shiftToTargetExponent, shiftToExponent, targetExponent_eq, excess]

theorem rounded_bounds (m : Nat) (e : Int) (accuracy : Accuracy) :
    m / 2 ^ excess m e ≤ rounded m e accuracy ∧
      rounded m e accuracy ≤ m / 2 ^ excess m e + 1 := by
  rw [← (shiftToTargetExponent_eq m e accuracy).1]
  exact roundedMantissa_bounds _

/-- Rounding shifts a mantissa once more if moving it up has made it too long. -/
theorem roundWithAccuracy_eq (sign : Sign) {m r : Nat} {e : Int} {accuracy : Accuracy}
    (hr : rounded m e accuracy = r) :
    (r / 2 ^ excess r (e + excess m e) = 0 ∧
        roundWithAccuracy Format.binary64 sign m e accuracy = .zero sign) ∨
      ∃ h, roundWithAccuracy Format.binary64 sign m e accuracy =
        .finite sign (r / 2 ^ excess r (e + excess m e))
          (e + excess m e + excess r (e + excess m e)) h := by
  have hround : roundWithAccuracy Format.binary64 sign m e accuracy =
      let last := shiftToTargetExponent Format.binary64 r (e + excess m e) .exact
      if h : last.1.mantissa = 0 then .zero sign
      else .finite sign last.1.mantissa last.2 (Nat.pos_of_ne_zero h) := by
    rw [← hr, ← (shiftToTargetExponent_eq m e accuracy).2]
    rfl
  rw [hround]
  obtain ⟨hlast, hlastExponent⟩ := shiftToTargetExponent_eq r (e + excess m e) .exact
  simp only [hlast, hlastExponent]
  split
  case isTrue hzero => exact .inl ⟨hzero, rfl⟩
  case isFalse hpositive => exact .inr ⟨Nat.pos_of_ne_zero hpositive, rfl⟩

/-- Rounding gives a number of the format, with the sign it was given. -/
theorem roundWithAccuracy_cases (sign : Sign) (m : Nat) (e : Int) (accuracy : Accuracy) :
    (roundWithAccuracy Format.binary64 sign m e accuracy = .zero sign ∧
      ¬ (m ≠ 0 ∧ -1074 ≤ m.log2 + e)) ∨
    ∃ m' e' h, roundWithAccuracy Format.binary64 sign m e accuracy = .finite sign m' e' h ∧
      m' < 2 ^ 53 ∧ -1074 ≤ e' ∧ e' ≤ max e (max (m.log2 + e - 52) (-1074)) + 1 := by
  obtain ⟨hle, hge⟩ := rounded_bounds m e accuracy
  generalize hr : rounded m e accuracy = r at hle hge
  obtain ⟨hzero, hround⟩ | ⟨h, hround⟩ := roundWithAccuracy_eq sign hr
  · refine .inl ⟨hround, ?_⟩
    rintro ⟨hm, he⟩
    have hfirst : 0 < m / 2 ^ excess m e := div_excess_pos hm he
    have hlast : 0 < r / 2 ^ excess r (e + excess m e) :=
      div_excess_pos (by omega) (by unfold excess; omega)
    omega
  · have hfirst : m / 2 ^ excess m e < 2 ^ 53 := div_excess_lt m e
    have hlog : r.log2 ≤ 53 := log2_le_of_le (by omega)
    refine .inr ⟨_, _, h, hround, div_excess_lt _ _, ?_, ?_⟩
    · unfold excess
      omega
    · unfold excess
      omega

/-- A mantissa that is long enough keeps fifty-three digits. -/
theorem roundWithAccuracy_normal (sign : Sign) {m : Nat} {e : Int} (accuracy : Accuracy)
    (hm : 52 ≤ m.log2) (he : -1022 ≤ m.log2 + e) :
    ∃ m' e' h, roundWithAccuracy Format.binary64 sign m e accuracy = .finite sign m' e' h ∧
      m'.log2 = 52 ∧ e ≤ e' ∧ e' ≤ m.log2 + e - 51 := by
  have hm0 : m ≠ 0 := by
    rintro rfl
    simp at hm
  have hexcess : excess m e = m.log2 - 52 := by
    unfold excess
    omega
  have hlog : (m / 2 ^ excess m e).log2 = 52 := by
    rw [log2_div_two_pow]
    omega
  have hpos : m / 2 ^ excess m e ≠ 0 := by
    intro hzero
    simp [hzero] at hlog
  have hlow : 2 ^ 52 ≤ m / 2 ^ excess m e := (Nat.le_log2 hpos).mp (by omega)
  have hhigh : m / 2 ^ excess m e < 2 ^ 53 := div_excess_lt m e
  obtain ⟨hle, hge⟩ := rounded_bounds m e accuracy
  generalize hr : rounded m e accuracy = r at hle hge
  have hleast : 52 ≤ r.log2 := (Nat.le_log2 (by omega)).mpr (by omega)
  have hmost : r.log2 ≤ 53 := log2_le_of_le (by omega)
  have hlast : excess r (e + excess m e) = r.log2 - 52 := by
    unfold excess
    omega
  have hdigits : (r / 2 ^ excess r (e + excess m e)).log2 = 52 := by
    rw [log2_div_two_pow]
    omega
  obtain ⟨hzero, -⟩ | ⟨h, hround⟩ := roundWithAccuracy_eq sign hr
  · simp [hzero] at hdigits
  · exact ⟨_, _, h, hround, hdigits, by omega, by omega⟩

/-! ## Packing -/

/-- Unpacked doubles that are numbers belong to the format. -/
theorem bounded_unpack (bits : BitVec 64) :
    (UnpackedFloat.unpack Format.binary64 bits).isFinite →
      Bounded 971 (UnpackedFloat.unpack Format.binary64 bits) := by
  fun_cases UnpackedFloat.unpack Format.binary64 bits with
  | case1 | case2 =>
    intro h
    cases h
  | case3 => exact fun _ ↦ .zero
  | case4 mantissa biased exponent _ _ _ hzero =>
    intro _
    have hmantissa : mantissa.toNat < 2 ^ 52 := mantissa.isLt
    have hbiased : biased.toNat = 0 := congrArg BitVec.toNat hzero
    have hexponent : exponent = (biased.toNat : Int) - 1075 := rfl
    exact .finite (by omega) (by omega) (by omega)
  | case5 mantissa biased exponent _ _ hmax hzero =>
    intro _
    have himplicit : (1#1 ++ mantissa).toNat < 2 ^ 53 := (1#1 ++ mantissa).isLt
    have hbiased : biased.toNat < 2 ^ 11 := biased.isLt
    have hbelow : biased.toNat ≠ 2047 := fun h ↦ hmax (BitVec.eq_of_toNat_eq h)
    have hpositive : biased.toNat ≠ 0 := fun h ↦ hzero (BitVec.eq_of_toNat_eq h)
    have hexponent : exponent = (biased.toNat : Int) - 1075 := rfl
    exact .finite himplicit (by omega) (by omega)

theorem unpack_pack_zero (sign : Sign) : (Float.Model.pack (.zero sign)).unpack = .zero sign := by
  cases sign <;> rfl

theorem unpack_pack_infinity (sign : Sign) :
    (Float.Model.pack (.infinity sign)).unpack = .infinity sign := by
  cases sign <;> rfl

/-- An exponent between the two special ones is kept, and the leading digit comes back. -/
theorem unpack_normal (sign : Sign) {biased : Nat} (mantissa : BitVec 52) (hpositive : 0 < biased)
    (hbelow : biased < 2047) :
    ∃ h, UnpackedFloat.unpack Format.binary64
        (packComponents Format.binary64 sign (BitVec.ofNat 11 biased) mantissa) =
      .finite sign (2 ^ 52 + mantissa.toNat) (biased - 1075) h := by
  have hbiased : (BitVec.ofNat 11 biased).toNat = biased := by
    rw [BitVec.toNat_ofNat, Nat.mod_eq_of_lt (by omega)]
  have hmax : BitVec.ofNat 11 biased ≠ -1#11 := by
    intro hall
    have htop : biased = 2047 := hbiased.symm.trans (congrArg BitVec.toNat hall)
    omega
  have hzero : BitVec.ofNat 11 biased ≠ 0#11 := by
    intro hnone
    have hbottom : biased = 0 := hbiased.symm.trans (congrArg BitVec.toNat hnone)
    omega
  have himplicit : (1#1 ++ mantissa).toNat = 2 ^ 52 + mantissa.toNat := by
    have hor := Nat.two_pow_add_eq_or_of_lt mantissa.isLt 1
    rw [BitVec.toNat_append, Nat.shiftLeft_eq, Nat.mul_comm]
    exact hor.symm
  refine ⟨by omega, ?_⟩
  unfold UnpackedFloat.unpack
  simp only [unpackMantissa_packComponents, unpackExponent_packComponents,
    unpackSign_packComponents, Sign.ofBitVec_toBitVec, hmax, hzero, if_false, hbiased]
  simp only [← himplicit]
  rfl

/-- With the least exponent a mantissa has one digit less. -/
theorem unpack_subnormal (sign : Sign) {m : Nat} (h : 0 < m) (hm : m < 2 ^ 52) :
    ∃ h', UnpackedFloat.unpack Format.binary64
        (packComponents Format.binary64 sign 0#11 (BitVec.ofNat 52 m)) =
      .finite sign (BitVec.ofNat 52 m).toNat (-1074) h' := by
  have hvalue : (BitVec.ofNat 52 m).toNat = m := by
    rw [BitVec.toNat_ofNat, Nat.mod_eq_of_lt hm]
  have hpositive : 0 < (BitVec.ofNat 52 m).toNat := hvalue.symm ▸ h
  have hzero : BitVec.ofNat 52 m ≠ 0#52 := by
    intro hnone
    have hnothing : m = 0 := hvalue.symm.trans (congrArg BitVec.toNat hnone)
    omega
  have hmax : 0#11 ≠ -1#11 := by decide
  unfold UnpackedFloat.unpack
  simp only [unpackMantissa_packComponents, unpackExponent_packComponents,
    unpackSign_packComponents, Sign.ofBitVec_toBitVec, hmax, hzero, if_false, if_true, dite_false]
  exact ⟨hpositive, rfl⟩

theorem unpack_pack_eq (sign : Sign) {m : Nat} (e : Int) (h : 0 < m) :
    (Float.Model.pack (.finite sign m e h)).unpack = UnpackedFloat.unpack Format.binary64
      (if 2 ^ 11 ≤ (e + 1023 + 52).toNat + 1 then packedInfinity Format.binary64 sign
        else if m.log2 + 1 = 53 then packComponents Format.binary64 sign
          (BitVec.ofNat 11 (e + 1023 + 52).toNat) (BitVec.ofNat 52 m)
        else packComponents Format.binary64 sign 0#11 (BitVec.ofNat 52 m)) := rfl

/-- A number with a mantissa of fifty-three digits comes back as it is. -/
theorem unpack_pack_normal (sign : Sign) {m : Nat} {e : Int} (h : 0 < m) (hm : m.log2 = 52)
    (hlow : -1074 ≤ e) (hhigh : e ≤ 971) :
    (Float.Model.pack (.finite sign m e h)).unpack = .finite sign m e h := by
  obtain ⟨h', hunpack⟩ := unpack_normal sign (BitVec.ofNat 52 m)
    (show 0 < (e + 1023 + 52).toNat by omega) (by omega)
  have hexponent : ((e + 1023 + 52).toNat : Int) - 1075 = e := by omega
  have hmantissa : 2 ^ 52 + (BitVec.ofNat 52 m).toNat = m := by
    obtain ⟨hleast, hmost⟩ := (Nat.log2_eq_iff (by omega)).mp hm
    rw [BitVec.toNat_ofNat]
    omega
  rw [unpack_pack_eq, if_neg (by omega), if_pos (by omega), hunpack]
  simp only [hexponent, hmantissa]

/-- Packing a rounded number keeps its sign. A number that is too large becomes infinite, any other
stays a number. -/
theorem unpack_pack_finite (sign : Sign) {m : Nat} {e : Int} (h : 0 < m) (hm : m < 2 ^ 53)
    (he : -1074 ≤ e) :
    (972 ≤ e ∧ (Float.Model.pack (.finite sign m e h)).unpack = .infinity sign) ∨
      ∃ m' e' h', (Float.Model.pack (.finite sign m e h)).unpack = .finite sign m' e' h' ∧
        m' < 2 ^ 53 ∧ -1074 ≤ e' ∧ e' ≤ e := by
  rw [unpack_pack_eq]
  split
  case isTrue hlarge => exact .inl ⟨by omega, unpack_pack_infinity sign⟩
  case isFalse hsmall =>
    split
    case isTrue hnormal =>
      obtain ⟨h', hunpack⟩ := unpack_normal sign (BitVec.ofNat 52 m)
        (show 0 < (e + 1023 + 52).toNat by omega) (by omega)
      have hfraction : (BitVec.ofNat 52 m).toNat < 2 ^ 52 := (BitVec.ofNat 52 m).isLt
      exact .inr ⟨_, _, h', hunpack, by omega, by omega, by omega⟩
    case isFalse hsubnormal =>
      have hlog : m.log2 < 53 := (Nat.log2_lt (by omega)).mpr hm
      have hbelow : m < 2 ^ 52 := (Nat.log2_lt (by omega)).mp (by omega)
      obtain ⟨h', hunpack⟩ := unpack_subnormal sign h hbelow
      have hvalue : (BitVec.ofNat 52 m).toNat < 2 ^ 52 := (BitVec.ofNat 52 m).isLt
      exact .inr ⟨_, _, h', hunpack, by omega, by decide, he⟩

end KeyHeat.Number

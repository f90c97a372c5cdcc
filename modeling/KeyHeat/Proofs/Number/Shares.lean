import KeyHeat.Proofs.Number.Scaling

/-!
# Shares of a count

A product with a number between zero and one is at most the other factor, as long as this one is
exact: rounding takes a product no further than to the next double, and the other factor is a
double itself. So a share of a count below two to the power 53 is at most the count. A greater
count is rounded first, and a share of it can be more than all there is.
-/

namespace KeyHeat.Number

open Float.Model Float.Model.UnpackedFloat

/-! ## Numbers up to a count -/

/-- A number of the format that is not negative and at most `n`. -/
inductive UpTo (n : Nat) : UnpackedFloat → Prop
  | zero {sign : Sign} : UpTo n (.zero sign)
  | finite {m : Nat} {e : Int} {h : 0 < m} {j k : Nat} (hm : m < 2 ^ 53) (hlow : -1074 ≤ e)
    (he : e = k - j) (hle : m * 2 ^ k ≤ n * 2 ^ j) : UpTo n (.finite .positive m e h)

section
variable {n m j k : Nat}

theorem exponent_lt (h : 0 < m) (hle : m * 2 ^ k ≤ n * 2 ^ j) (hn : n < 2 ^ 53) : k < 53 + j := by
  have hpow : 2 ^ k < 2 ^ (53 + j) := by
    calc 2 ^ k
      _ ≤ m * 2 ^ k := Nat.le_mul_of_pos_left _ h
      _ ≤ n * 2 ^ j := hle
      _ < 2 ^ 53 * 2 ^ j := Nat.mul_lt_mul_of_pos_right hn (Nat.two_pow_pos j)
      _ = 2 ^ (53 + j) := (Nat.pow_add _ _ _).symm
  exact (Nat.pow_lt_pow_iff_right (by decide)).mp hpow

/-- Only zeros are lost from a mantissa that is a multiple of what it is shifted by. -/
theorem rounded_mul_two_pow {q x : Nat} {e : Int} (hx : excess (q * 2 ^ x) e = x) :
    rounded (q * 2 ^ x) e .exact = q := by
  rw [rounded_eq, hx, shiftRight_mul_two_pow]
  rfl

/-- Rounding does not go beyond a bound that needs no rounding. -/
theorem rounded_le {p q x : Nat} {e : Int} (hx : excess p e = x) (h : p ≤ q * 2 ^ x) :
    rounded p e .exact ≤ q := by
  have hmost := (rounded_bounds p e .exact).2
  rw [hx] at hmost
  have hquotient : p / 2 ^ x ≤ q := Nat.div_le_of_le_mul (Nat.mul_comm q _ ▸ h)
  obtain hless | hsame := Nat.lt_or_eq_of_le hquotient
  · omega
  · have hexact : p = q * 2 ^ x := Nat.le_antisymm h (hsame ▸ Nat.div_mul_le_self p _)
    subst hexact
    exact (rounded_mul_two_pow hx).le

/-- A product that is at most a count is shifted no further than to a whole number. -/
theorem excess_le {p : Nat} (hn : n < 2 ^ 53) (hle : p ≤ n * 2 ^ j) : excess p (-j) ≤ j := by
  have hlog : p.log2 < 53 + j := by
    obtain rfl | hp := Nat.eq_zero_or_pos p
    · rw [Nat.log2_zero]
      omega
    · rw [Nat.log2_lt hp.ne', Nat.pow_add]
      exact hle.trans_lt (Nat.mul_lt_mul_of_pos_right hn (Nat.two_pow_pos j))
  unfold excess
  omega

theorem upTo_roundWithAccuracy {p : Nat} (hn : n < 2 ^ 53) (hle : p ≤ n * 2 ^ j) :
    UpTo n (roundWithAccuracy Format.binary64 .positive p (-j) .exact) := by
  generalize hx : excess p (-j) = x
  obtain ⟨i, rfl⟩ := Nat.exists_eq_add_of_le (hx ▸ excess_le hn hle)
  generalize hr : rounded p (-(x + i : Nat)) .exact = r
  have hrounded : r ≤ n * 2 ^ i := by
    rw [Nat.add_comm, Nat.pow_add, ← Nat.mul_assoc] at hle
    exact hr ▸ rounded_le hx hle
  obtain ⟨-, hround⟩ | ⟨h, hround⟩ := roundWithAccuracy_eq .positive hr
  · rw [hround]
    exact .zero
  · rw [hround]
    refine .finite (j := i) (k := excess r (-(x + i : Nat) + excess p (-(x + i : Nat))))
      (div_excess_lt _ _) ?_ ?_ ((Nat.div_mul_le_self _ _).trans hrounded)
    · unfold excess
      omega
    · omega

/-- Packing a number that is at most a count keeps it so: one that has too few digits is below
one. -/
theorem UpTo.unpack_pack {u : UnpackedFloat} (h : UpTo n u) (hn : n < 2 ^ 53) :
    UpTo n (Float.Model.pack u).unpack := by
  cases h with
  | zero =>
    rw [unpack_pack_zero]
    exact .zero
  | @finite m e hpos j k hm hlow he hle =>
    have hk := exponent_lt hpos hle hn
    by_cases hnormal : m.log2 = 52
    · rw [unpack_pack_normal .positive hpos hnormal hlow (by omega)]
      exact .finite hm hlow he hle
    · have hlog : m.log2 < 53 := (Nat.log2_lt hpos.ne').mpr hm
      have hbelow : m < 2 ^ 52 := (Nat.log2_lt hpos.ne').mp (by omega)
      obtain ⟨h', hunpack⟩ := unpack_subnormal .positive hpos hbelow
      rw [unpack_pack_eq, if_neg (by omega), if_neg (by omega), hunpack]
      have hpositive : 0 < n := by
        by_contra hzero
        rw [Nat.eq_zero_of_not_pos hzero, Nat.zero_mul, Nat.le_zero] at hle
        exact (Nat.mul_pos hpos (Nat.two_pow_pos k)).ne' hle
      have hvalue : (BitVec.ofNat 52 m).toNat < 2 ^ 52 := (BitVec.ofNat 52 m).isLt
      have hfraction (j : Nat) (hj : 52 ≤ j) :
          (BitVec.ofNat 52 m).toNat * 2 ^ 0 ≤ n * 2 ^ j := by
        calc (BitVec.ofNat 52 m).toNat * 2 ^ 0
          _ = (BitVec.ofNat 52 m).toNat := Nat.mul_one _
          _ ≤ 2 ^ j := hvalue.le.trans (Nat.pow_le_pow_right (by decide) hj)
          _ ≤ n * 2 ^ j := Nat.le_mul_of_pos_left _ hpositive
      exact .finite (hvalue.trans (by decide)) (by decide) (by decide)
        (hfraction 1074 (by decide))

/-! ## Whole parts -/

theorem roundToInt_eq (m : Nat) (e : Int) :
    roundToInt .positive m e = (m * 2 ^ e.toNat / 2 ^ (-e).toNat : Nat) := by
  have hmantissa (p : Nat) : (ExtendedMantissa.ofMantissaAndAccuracy p .exact).mantissa = p := rfl
  have hshift : (0 - (e - (e - 0).toNat)).toNat = (-e).toNat := by omega
  simp only [roundToInt, decreaseExponent, shiftToExponent, Sign.apply, mantissa_shiftRight,
    hmantissa, hshift, Nat.shiftLeft_eq]
  rw [Int.sub_zero]

theorem div_two_pow_le {e : Int} (he : e = k - j) (hle : m * 2 ^ k ≤ n * 2 ^ j) :
    m * 2 ^ e.toNat / 2 ^ (-e).toNat ≤ n := by
  obtain hkj | hjk := Nat.le_total k j
  · obtain ⟨d, rfl⟩ := Nat.exists_eq_add_of_le hkj
    have hup : e.toNat = 0 := by omega
    have hdown : (-e).toNat = d := by omega
    rw [Nat.add_comm, Nat.pow_add, ← Nat.mul_assoc] at hle
    rw [hup, hdown, Nat.pow_zero, Nat.mul_one]
    apply Nat.div_le_of_le_mul
    rw [Nat.mul_comm _ n]
    exact Nat.le_of_mul_le_mul_right hle (Nat.two_pow_pos k)
  · obtain ⟨d, rfl⟩ := Nat.exists_eq_add_of_le hjk
    have hup : e.toNat = d := by omega
    have hdown : (-e).toNat = 0 := by omega
    rw [Nat.add_comm, Nat.pow_add, ← Nat.mul_assoc] at hle
    rw [hup, hdown, Nat.pow_zero, Nat.div_one]
    exact Nat.le_of_mul_le_mul_right hle (Nat.two_pow_pos j)

theorem UpTo.truncate_le {x : Float} (h : UpTo n x.toModel.unpack) (hn : n < 2 ^ 53) :
    truncate x ≤ n := by
  change (UInt64.ofNatClamp (toInt 0 (UInt64.size - 1) x.toModel.unpack).toNat).toNat ≤ n
  cases hx : x.toModel.unpack with
  | notANumber | infinity => rw [hx] at h; cases h
  | zero => exact Nat.zero_le n
  | finite sign m e hpos =>
    rw [hx] at h
    cases h with
    | finite _ _ he hle =>
      have hwhole := div_two_pow_le he hle
      rw [toInt, roundToInt_eq, Int.toNat_natCast, UInt64.toNat_ofNatClamp_of_lt]
      · exact hwhole
      · exact hwhole.trans_lt (hn.trans (by decide))

/-! ## Products -/

theorem upTo_one {h : 0 < m} {e : Int} (hm : m < 2 ^ 53) (hlow : -1074 ≤ e)
    (hle : e < -52 ∨ e = -52 ∧ m ≤ 2 ^ 52) : UpTo 1 (.finite .positive m e h) := by
  have hfactor : m * 2 ^ 0 ≤ 1 * 2 ^ (-e).toNat := by
    rw [Nat.pow_zero, Nat.mul_one, Nat.one_mul]
    obtain hless | ⟨rfl, hmost⟩ := hle
    · exact hm.le.trans (Nat.pow_le_pow_right (by decide) (by omega))
    · exact hmost
  exact .finite hm hlow (by omega) hfactor

theorem upTo_of_between {x : Float} (hlow : 0 ≤ x) (hhigh : x ≤ 1) : UpTo 1 x.toModel.unpack := by
  have hbounded : x.toModel.unpack.isFinite → _ := isFinite_iff.mp
  rw [le_iff, unpack_zero] at hlow
  rw [le_iff, unpack_one] at hhigh
  generalize x.toModel.unpack = u at hlow hhigh hbounded
  cases u with
  | notANumber => simp [UnpackedFloat.compare] at hlow
  | infinity sign => cases sign <;> simp [UnpackedFloat.compare] at hlow hhigh
  | zero => exact .zero
  | finite sign m e hpos =>
    cases sign with
    | negative => simp [UnpackedFloat.compare] at hlow
    | positive =>
      cases hbounded rfl with
      | finite hm hleast =>
        refine upTo_one hm hleast ?_
        have hcompare : ((compare e (-52)).then (compare m (2 ^ 52))).isLE = true := hhigh
        obtain hless | rfl | hmore := Int.lt_trichotomy e (-52)
        · exact .inl hless
        · exact .inr ⟨rfl, Nat.isLE_compare.mp hcompare⟩
        · rw [Int.compare_eq_gt.mpr hmore] at hcompare
          cases hcompare

/-- What is cut to the range from zero to one lies in it, unless it is no number. -/
theorem upTo_clamp (x : Float) :
    UpTo 1 (clamp 0 1 x).toModel.unpack ∨ (clamp 0 1 x).toModel.unpack = .notANumber := by
  unfold clamp
  split_ifs with hbelow habove
  · exact .inl (upTo_of_between (by decide) (by decide))
  · exact .inl (upTo_of_between (by decide) (by decide))
  · have hbounded : x.toModel.unpack.isFinite → _ := isFinite_iff.mp
    rw [lt_iff, unpack_zero] at hbelow
    rw [lt_iff, unpack_one] at habove
    generalize x.toModel.unpack = u at hbelow habove hbounded
    cases u with
    | notANumber => exact .inr rfl
    | infinity sign => cases sign <;> simp [UnpackedFloat.compare] at hbelow habove
    | zero => exact .inl .zero
    | finite sign m e hpos =>
      cases sign with
      | negative => simp [UnpackedFloat.compare] at hbelow
      | positive =>
        cases hbounded rfl with
        | finite hm hleast =>
          refine .inl (upTo_one hm hleast ?_)
          have hcompare : (compare (-52) e).then (compare (2 ^ 52) m) ≠ .lt := by
            intro hless
            exact habove (congrArg some hless)
          obtain hless | rfl | hmore := Int.lt_trichotomy e (-52)
          · exact .inl hless
          · exact .inr ⟨rfl, Nat.le_of_not_lt fun hless ↦ hcompare (Nat.compare_eq_lt.mpr hless)⟩
          · rw [Int.compare_eq_lt.mpr hmore] at hcompare
            exact absurd rfl hcompare

theorem unpack_ofCount (hpos : 0 < n) (hn : n < 2 ^ 53) :
    ∃ i h, (ofCount n).toModel.unpack = .finite .positive (n * 2 ^ i) (-(i : Nat)) h := by
  have hword : n.toUInt64.toNat = n := Nat.mod_eq_of_lt (hn.trans (by decide))
  have hlog : n.log2 < 53 := (Nat.log2_lt hpos.ne').mpr hn
  have hshifted : (n * 2 ^ (52 - n.log2)).log2 = 52 := by
    rw [← Nat.shiftLeft_eq, log2_shiftLeft hpos.ne']
    omega
  have hmantissa : 0 < n * 2 ^ (52 - n.log2) := Nat.mul_pos hpos (Nat.two_pow_pos _)
  have hexact := roundWithAccuracy_mul_two_pow .positive 0 hmantissa hshifted
    (show -1074 ≤ (-(52 - n.log2 : Nat) : Int) + (0 : Nat) by omega)
  refine ⟨52 - n.log2, hmantissa, ?_⟩
  rw [ofCount, toFloat_eq (hword.symm ▸ hpos), hword, round_eq, Nat.shiftLeft_eq]
  rw [Nat.pow_zero, Nat.mul_one] at hexact
  rw [hexact]
  rw [Int.natCast_zero, Int.add_zero]
  exact unpack_pack_normal .positive hmantissa hshifted (by omega) (by omega)

theorem upTo_mul {i : Nat} {h : 0 < n * 2 ^ i} {u : UnpackedFloat} (hu : UpTo 1 u)
    (hn : n < 2 ^ 53) :
    UpTo n
      (UnpackedFloat.mul Format.binary64 (.finite .positive (n * 2 ^ i) (-(i : Nat)) h) u) := by
  cases hu with
  | zero => exact .zero
  | @finite m e hpos j k hm hlow he hle =>
    rw [Nat.one_mul] at hle
    have hkj : k ≤ j := by
      have hpow : 2 ^ k ≤ 2 ^ j := (Nat.le_mul_of_pos_left _ hpos).trans hle
      exact (Nat.pow_le_pow_iff_right (by decide)).mp hpow
    obtain ⟨d, rfl⟩ := Nat.exists_eq_add_of_le hkj
    have hfactor : m ≤ 2 ^ d := by
      rw [Nat.add_comm, Nat.pow_add] at hle
      exact Nat.le_of_mul_le_mul_right hle (Nat.two_pow_pos k)
    have hproduct : n * 2 ^ i * m ≤ n * 2 ^ (i + d) := by
      rw [Nat.pow_add, ← Nat.mul_assoc]
      exact Nat.mul_le_mul_left _ hfactor
    have hexponent : -(i : Int) + e = -(i + d : Nat) := by omega
    have hround := upTo_roundWithAccuracy hn hproduct
    rw [← hexponent] at hround
    exact hround

theorem unpack_mul (x y : Float) : (x * y).toModel.unpack = (Float.Model.pack
    (UnpackedFloat.mul Format.binary64 x.toModel.unpack y.toModel.unpack)).unpack := rfl

theorem truncate_mul_le_of_upTo {x : Float} (hn : n < 2 ^ 53) (hx : UpTo 1 x.toModel.unpack) :
    truncate (ofCount n * x) ≤ n := by
  apply UpTo.truncate_le _ hn
  rw [unpack_mul]
  apply UpTo.unpack_pack _ hn
  generalize x.toModel.unpack = u at hx
  obtain rfl | hpos := Nat.eq_zero_or_pos n
  · have hzero : (ofCount 0).toModel.unpack = .zero .positive := rfl
    rw [hzero]
    cases hx with
    | zero | finite => exact .zero
  · obtain ⟨i, h, hcount⟩ := unpack_ofCount hpos hn
    rw [hcount]
    exact upTo_mul hx hn

/-- A share of a count, rounded down, is at most the count. -/
theorem truncate_mul_le {ratio : Float} (hn : n < 2 ^ 53) (hlow : 0 ≤ ratio) (hhigh : ratio ≤ 1) :
    truncate (ofCount n * ratio) ≤ n :=
  truncate_mul_le_of_upTo hn (upTo_of_between hlow hhigh)

theorem truncate_mul_notANumber (x : Float) {y : Float} (h : y.toModel.unpack = .notANumber) :
    truncate (x * y) = 0 := by
  have hproduct : (x * y).toModel.unpack = .notANumber := by
    have hmul (u : UnpackedFloat) : UnpackedFloat.mul Format.binary64 u .notANumber =
        .notANumber := by
      cases u <;> simp [UnpackedFloat.mul]
    rw [unpack_mul, h, hmul]
    rfl
  change (UInt64.ofNatClamp (toInt 0 (UInt64.size - 1) (x * y).toModel.unpack).toNat).toNat = 0
  rw [hproduct]
  rfl

/-- So is a share by any double, once that is cut to the range from zero to one. -/
theorem truncate_mul_clamp_le (hn : n < 2 ^ 53) (x : Float) :
    truncate (ofCount n * clamp 0 1 x) ≤ n := by
  obtain hclamp | hclamp := upTo_clamp x
  · exact truncate_mul_le_of_upTo hn hclamp
  · rw [truncate_mul_notANumber _ hclamp]
    exact Nat.zero_le n

end

end KeyHeat.Number

import KeyHeat.Proofs.Number.Rounding

/-!
# Finite doubles

Which operations on doubles lead from numbers to numbers. Negation and the conversion of counts
always do, a product does unless it is infinite, and a quotient does when the divisor is not
small; the quotient of two positive numbers that are not too far apart is positive.
-/

namespace KeyHeat.Number

open Float.Model Float.Model.UnpackedFloat

/-! ## Numbers -/

section
variable {bound larger : Int} {u v : UnpackedFloat}

theorem Bounded.isFinite (h : Bounded bound u) : u.isFinite := by
  cases h <;> rfl

theorem isFinite_iff {x : Float} : x.isFinite ↔ Bounded 971 x.toModel.unpack :=
  ⟨bounded_unpack x.toModel.toBits.toBitVec, Bounded.isFinite⟩

theorem Bounded.mono (h : Bounded bound u) (hle : bound ≤ larger) : Bounded larger u := by
  cases h with
  | zero => exact .zero
  | finite hm hlow hhigh => exact .finite hm hlow (Int.le_trans hhigh hle)

theorem Bounded.unpack_pack (h : Bounded bound u) (hbound : bound ≤ 971) :
    Bounded bound (Float.Model.pack u).unpack := by
  cases h with
  | zero =>
    rw [unpack_pack_zero]
    exact .zero
  | @finite sign m e hpos hm hlow hhigh =>
    obtain ⟨hlarge, -⟩ | ⟨m', e', h', hunpack, hm', hlow', hhigh'⟩ :=
      unpack_pack_finite sign hpos hm hlow
    · omega
    · rw [hunpack]
      exact .finite hm' hlow' (Int.le_trans hhigh' hhigh)

theorem Bounded.neg (h : Bounded bound u) : Bounded bound u.neg := by
  cases h with
  | zero => exact .zero
  | finite hm hlow hhigh => exact .finite hm hlow hhigh

theorem isFinite_neg {x : Float} (h : x.isFinite) : (-x).isFinite :=
  isFinite_iff.mpr ((isFinite_iff.mp h).neg.unpack_pack (by decide))

/-! ## Products -/

theorem bounded_roundWithAccuracy (sign : Sign) (m : Nat) (e : Int) (accuracy : Accuracy) :
    Bounded (max e (max (m.log2 + e - 52) (-1074)) + 1)
      (roundWithAccuracy Format.binary64 sign m e accuracy) := by
  obtain ⟨hround, -⟩ | ⟨m', e', h, hround, hm, hlow, hhigh⟩ :=
    roundWithAccuracy_cases sign m e accuracy
  · rw [hround]
    exact .zero
  · rw [hround]
    exact .finite hm hlow hhigh

theorem Bounded.mul (hu : Bounded bound u) (hv : Bounded larger v) :
    ∃ largest, Bounded largest (UnpackedFloat.mul Format.binary64 u v) := by
  cases hu with
  | zero =>
    cases hv with
    | zero | finite => exact ⟨0, .zero⟩
  | finite =>
    cases hv with
    | zero => exact ⟨0, .zero⟩
    | finite => exact ⟨_, bounded_roundWithAccuracy _ _ _ _⟩

/-- A rounded number that does not become infinite stays a number. -/
theorem Bounded.isFinite_of_not_isInf (h : Bounded bound u)
    (hinf : ¬ (Float.ofModel (.pack u)).isInf) : (Float.ofModel (.pack u)).isFinite := by
  change (Float.Model.pack u).unpack.isFinite
  change ¬ (Float.Model.pack u).unpack.isInf at hinf
  cases h with
  | zero =>
    rw [unpack_pack_zero]
    rfl
  | @finite sign m e hpos hm hlow =>
    obtain ⟨-, hunpack⟩ | ⟨m', e', h', hunpack, -⟩ := unpack_pack_finite sign hpos hm hlow
    · rw [hunpack] at hinf
      exact absurd rfl hinf
    · rw [hunpack]
      rfl

theorem isFinite_mul {x y : Float} (hx : x.isFinite) (hy : y.isFinite) (hinf : ¬ (x * y).isInf) :
    (x * y).isFinite := by
  obtain ⟨bound, hproduct⟩ := (isFinite_iff.mp hx).mul (isFinite_iff.mp hy)
  exact hproduct.isFinite_of_not_isInf hinf

/-! ## Quotients -/

theorem log2_div_le {a b : Nat} (hb : b ≠ 0) (hq : a / b ≠ 0) :
    (a / b).log2 + b.log2 ≤ a.log2 := by
  have ha : a ≠ 0 := by
    rintro rfl
    exact hq (Nat.zero_div b)
  rw [Nat.le_log2 ha, Nat.pow_add]
  calc 2 ^ (a / b).log2 * 2 ^ b.log2
    _ ≤ a / b * b := Nat.mul_le_mul (Nat.log2_self_le hq) (Nat.log2_self_le hb)
    _ ≤ a := Nat.div_mul_le_self a b

theorem le_log2_div {a b : Nat} (hb : b ≠ 0) (hlog : b.log2 < a.log2) :
    a / b ≠ 0 ∧ a.log2 ≤ (a / b).log2 + b.log2 + 1 := by
  have ha : a ≠ 0 := by
    rintro rfl
    simp at hlog
  have hpow : 2 ^ (a.log2 - (b.log2 + 1)) ≤ a / b := by
    rw [Nat.le_div_iff_mul_le (Nat.pos_of_ne_zero hb)]
    calc 2 ^ (a.log2 - (b.log2 + 1)) * b
      _ ≤ 2 ^ (a.log2 - (b.log2 + 1)) * 2 ^ (b.log2 + 1) :=
        Nat.mul_le_mul_left _ (Nat.le_of_lt Nat.lt_log2_self)
      _ = 2 ^ a.log2 := by rw [← Nat.pow_add, Nat.sub_add_cancel hlog]
      _ ≤ a := Nat.log2_self_le ha
  have hq : a / b ≠ 0 := by
    have hpos : 0 < 2 ^ (a.log2 - (b.log2 + 1)) := Nat.two_pow_pos _
    omega
  have hle : a.log2 - (b.log2 + 1) ≤ (a / b).log2 := (Nat.le_log2 hq).mpr hpow
  exact ⟨hq, by omega⟩

theorem log2_shiftLeft {m : Nat} (hm : m ≠ 0) (k : Nat) : (m <<< k).log2 = m.log2 + k := by
  have hpos : 0 < 2 ^ k := Nat.two_pow_pos k
  rw [Nat.shiftLeft_eq, Nat.log2_eq_iff (Nat.mul_ne_zero hm (Nat.ne_of_gt hpos)), Nat.pow_add,
    Nat.add_right_comm, Nat.pow_add]
  exact ⟨Nat.mul_le_mul_right _ (Nat.log2_self_le hm),
    Nat.mul_lt_mul_of_pos_right Nat.lt_log2_self hpos⟩

/-- The quotient of two finite numbers is rounded once. Its exponent is the difference of those of
the leading digits, up to the width of the format, and it does not vanish unless that difference is
out of reach. -/
theorem div_cases (s₁ s₂ : Sign) {m₁ m₂ : Nat} (e₁ e₂ : Int) (h₁ : 0 < m₁) (h₂ : 0 < m₂) :
    (UnpackedFloat.div Format.binary64 (.finite s₁ m₁ e₁ h₁) (.finite s₂ m₂ e₂ h₂) =
        .zero (s₁ / s₂) ∧ m₁.log2 + e₁ - (m₂.log2 + e₂) < -1073) ∨
      ∃ m e h, UnpackedFloat.div Format.binary64 (.finite s₁ m₁ e₁ h₁) (.finite s₂ m₂ e₂ h₂) =
        .finite (s₁ / s₂) m e h ∧ m < 2 ^ 53 ∧ -1074 ≤ e ∧
          e ≤ max (m₁.log2 + e₁ - (m₂.log2 + e₂) - 52) (-1074) + 1 := by
  obtain ⟨target, htarget⟩ : ∃ target : Int, target =
      min (e₁ - e₂) (max (m₁.log2 + e₁ - (m₂.log2 + e₂) - 53) (-1074)) := ⟨_, rfl⟩
  obtain ⟨amount, hamount⟩ : ∃ amount : Nat, amount = (e₁ - e₂ - target).toNat := ⟨_, rfl⟩
  have hdiv : ∃ accuracy,
      UnpackedFloat.div Format.binary64 (.finite s₁ m₁ e₁ h₁) (.finite s₂ m₂ e₂ h₂) =
        roundWithAccuracy Format.binary64 (s₁ / s₂) (m₁ <<< amount / m₂) target accuracy := by
    have htotal : totalExponent m₁ e₁ - totalExponent m₂ e₂ = m₁.log2 + e₁ - (m₂.log2 + e₂) := by
      unfold totalExponent
      omega
    have hformat : Format.binary64.targetExponent (totalExponent m₁ e₁ - totalExponent m₂ e₂) =
        max (m₁.log2 + e₁ - (m₂.log2 + e₂) - 53) (-1074) := by
      rw [htotal]
      rfl
    refine ⟨accuracyOfFraction (m₁ <<< amount % m₂) m₂, ?_⟩
    simp only [UnpackedFloat.div, divCore, hformat, ← htarget, ← hamount]
  obtain ⟨accuracy, hround⟩ := hdiv
  have hlog : (m₁ <<< amount).log2 = m₁.log2 + amount := log2_shiftLeft (by omega) amount
  rw [hround]
  obtain ⟨hzero, hsmall⟩ | ⟨m, e, h, hresult, hm, hlow, hhigh⟩ :=
    roundWithAccuracy_cases (s₁ / s₂) (m₁ <<< amount / m₂) target accuracy
  · refine .inl ⟨hzero, Int.not_le.mp fun hnear ↦ ?_⟩
    obtain ⟨hq, hqlog⟩ := le_log2_div (a := m₁ <<< amount) (b := m₂) (by omega) (by omega)
    exact hsmall ⟨hq, by omega⟩
  · refine .inr ⟨m, e, h, hresult, hm, hlow, ?_⟩
    by_cases hq : m₁ <<< amount / m₂ = 0
    · rw [hq, Nat.log2_zero] at hhigh
      omega
    · have hqlog := log2_div_le (by omega) hq
      omega

/-- A number whose leading digit stands at position `low` or above. -/
inductive AtLeast (low : Int) : UnpackedFloat → Prop
  | finite {sign : Sign} {m : Nat} {e : Int} {h : 0 < m} (hlow : low ≤ m.log2 + e) :
    AtLeast low (.finite sign m e h)

instance (low : Int) : (u : UnpackedFloat) → Decidable (AtLeast low u)
  | .finite _ m e _ => decidable_of_iff (low ≤ m.log2 + e) ⟨.finite, fun | .finite h => h⟩
  | .zero _ | .infinity _ | .notANumber => .isFalse nofun

theorem AtLeast.mono {low smaller : Int} (h : AtLeast low u) (hle : smaller ≤ low) :
    AtLeast smaller u := by
  obtain ⟨hlow⟩ := h
  exact ⟨Int.le_trans hle hlow⟩

theorem AtLeast.isFinite {low : Int} (h : AtLeast low u) : u.isFinite := by
  cases h
  rfl

/-- Division by a number that is not small keeps the exponent in check. -/
theorem Bounded.div {low : Int} (hu : Bounded bound u) (hv : AtLeast low v) (hlow : -1073 ≤ larger)
    (hle : bound - low + 1 ≤ larger) : Bounded larger (UnpackedFloat.div Format.binary64 u v) := by
  obtain @⟨s₂, m₂, e₂, h₂, hdivisor⟩ := hv
  cases hu with
  | zero => exact .zero
  | @finite s₁ m₁ e₁ h₁ hm₁ hlow₁ hhigh₁ =>
    obtain ⟨hzero, -⟩ | ⟨m, e, h, hdiv, hm, hmin, hmax⟩ := div_cases s₁ s₂ e₁ e₂ h₁ h₂
    · rw [hzero]
      exact .zero
    · rw [hdiv]
      have hlog : m₁.log2 < 53 := (Nat.log2_lt (by omega)).mpr hm₁
      exact .finite hm hmin (by omega)

end

/-! ## Counts -/

/-- A count is rounded with at least fifty-three digits. -/
theorem round_eq (m : Nat) :
    UnpackedFloat.round Format.binary64 .positive m 0 =
      roundWithAccuracy Format.binary64 .positive (m <<< (52 - m.log2)) (-(52 - m.log2 : Nat))
        .exact := by
  have hamount : (-max ((m.log2 : Int) + 0 - 52) (-1074)).toNat = 52 - m.log2 := by
    omega
  simp only [UnpackedFloat.round, targetExponent_eq, decreaseExponent, Int.zero_sub, hamount]

theorem bounded_round {m : Nat} (hm : 0 < m) :
    Bounded (max 0 (m.log2 - 52) + 1) (UnpackedFloat.round Format.binary64 .positive m 0) := by
  have hlog : (m <<< (52 - m.log2)).log2 = m.log2 + (52 - m.log2) := log2_shiftLeft (by omega) _
  rw [round_eq]
  exact (bounded_roundWithAccuracy _ _ _ _).mono (by omega)

theorem toFloat_eq {word : UInt64} (h : 0 < word.toNat) :
    word.toFloat =
      .ofModel (.pack (UnpackedFloat.round Format.binary64 .positive word.toNat 0)) := by
  have hnormalize : UnpackedFloat.ofUInt64 Format.binary64 word =
      UnpackedFloat.round Format.binary64 .positive word.toNat 0 := by
    have hpositive : compare (word.toNat : Int) 0 = .gt := Int.compare_eq_gt.mpr (by omega)
    simp only [UnpackedFloat.ofUInt64, UnpackedFloat.ofNat, UnpackedFloat.ofInt,
      UnpackedFloat.normalize, hpositive, Int.toNat_natCast]
  rw [← hnormalize]
  rfl

/-- A count below two to the power 64 is a number with at most sixty-four digits. -/
theorem bounded_ofCount (n : Nat) : Bounded 12 (ofCount n).toModel.unpack := by
  by_cases hpositive : 0 < n.toUInt64.toNat
  · have hlog : n.toUInt64.toNat.log2 < 64 :=
      (Nat.log2_lt (by omega)).mpr n.toUInt64.toNat_lt
    rw [ofCount, toFloat_eq hpositive]
    exact ((bounded_round hpositive).mono (by omega)).unpack_pack (by decide)
  · have hzero : n.toUInt64 = 0 := UInt64.toNat.inj (Nat.eq_zero_of_not_pos hpositive)
    have hunpack : (0 : UInt64).toFloat.toModel.unpack = .zero .positive := rfl
    rw [ofCount, hzero, hunpack]
    exact .zero

/-! ## Order -/

theorem unpack_zero : (0 : Float).toModel.unpack = .zero .positive := by
  have h : (0 : Float) = Float.ofBits 0 := by decide
  rw [h]
  rfl

theorem unpack_one : (1 : Float).toModel.unpack = .finite .positive (2 ^ 52) (-52) (by decide) := by
  have h : (1 : Float) = Float.ofBits 0x3FF0000000000000 := by decide
  rw [h]
  rfl

theorem unpack_two : (2 : Float).toModel.unpack = .finite .positive (2 ^ 52) (-51) (by decide) := by
  have h : (2 : Float) = Float.ofBits 0x4000000000000000 := by decide
  rw [h]
  rfl

theorem lt_iff {x y : Float} :
    x < y ↔ UnpackedFloat.compare x.toModel.unpack y.toModel.unpack = some .lt := by
  change decide (x.toModel < y.toModel) = true ↔ _
  rw [decide_eq_true_iff]
  change (UnpackedFloat.compare x.toModel.unpack y.toModel.unpack == some .lt) = true ↔ _
  exact beq_iff_eq

theorem le_iff {x y : Float} :
    x ≤ y ↔ (UnpackedFloat.compare x.toModel.unpack y.toModel.unpack).any (·.isLE) = true := by
  change decide (x.toModel ≤ y.toModel) = true ↔ _
  rw [decide_eq_true_iff]
  rfl

/-- The numbers that are not at most zero are the positive ones. -/
theorem not_le_zero_iff {x : Float} (h : x.isFinite) : ¬ x ≤ 0 ↔ 0 < x := by
  rw [isFinite_iff] at h
  rw [le_iff, lt_iff, unpack_zero]
  generalize x.toModel.unpack = u at h
  cases h with
  | zero => simp [UnpackedFloat.compare]
  | @finite sign => cases sign <;> simp [UnpackedFloat.compare]

theorem not_one_le_iff {x : Float} (h : x.isFinite) : ¬ 1 ≤ x ↔ x < 1 := by
  rw [isFinite_iff] at h
  rw [le_iff, lt_iff, unpack_one]
  generalize x.toModel.unpack = u at h
  cases h with
  | zero => simp [UnpackedFloat.compare]
  | @finite sign m e =>
    cases sign with
    | negative => simp [UnpackedFloat.compare]
    | positive =>
      have hswap : (compare (-52) e).then (compare (2 ^ 52) m) =
          ((compare e (-52)).then (compare m (2 ^ 52))).swap := by
        rw [Ordering.swap_then, Int.compare_swap, Nat.compare_swap]
      simp only [UnpackedFloat.compare, hswap, Option.any_some, Option.some.injEq]
      cases (compare e (-52)).then (compare m (2 ^ 52)) <;> decide

theorem isFinite_of_between {x : Float} (hpos : 0 < x) (hlt : x < 1) : x.isFinite := by
  rw [lt_iff, unpack_zero] at hpos
  rw [lt_iff, unpack_one] at hlt
  change x.toModel.unpack.isFinite = true
  cases hx : x.toModel.unpack with
  | zero | finite => rfl
  | notANumber => simp [hx, UnpackedFloat.compare] at hlt
  | infinity sign =>
    rw [hx] at hpos hlt
    cases sign with
    | negative => simp [UnpackedFloat.compare] at hpos
    | positive => simp [UnpackedFloat.compare] at hlt

/-- Two divided by a positive number is positive, and at least an infinity. -/
theorem zero_lt_two_div {x : Float} (h : x.isFinite) (hpos : 0 < x) : 0 < 2 / x := by
  rw [isFinite_iff] at h
  rw [lt_iff, unpack_zero] at hpos ⊢
  have hquotient : (2 / x).toModel.unpack = (Float.Model.pack
      (UnpackedFloat.div Format.binary64 (2 : Float).toModel.unpack x.toModel.unpack)).unpack := rfl
  rw [hquotient, unpack_two]
  generalize x.toModel.unpack = u at h hpos
  cases h with
  | zero => simp [UnpackedFloat.compare] at hpos
  | @finite sign m e hm hdigits hlow hhigh =>
    cases sign with
    | negative => simp [UnpackedFloat.compare] at hpos
    | positive =>
      obtain ⟨-, hfar⟩ | ⟨m', e', h', hdiv, hm', hmin, -⟩ :=
        div_cases .positive .positive (-51) e (by decide : 0 < 2 ^ 52) hm
      · have hlog : m.log2 < 53 := (Nat.log2_lt (by omega)).mpr hdigits
        rw [Nat.log2_two_pow] at hfar
        omega
      · rw [hdiv]
        obtain ⟨-, hpack⟩ | ⟨_, _, _, hpack, -⟩ :=
          unpack_pack_finite (.positive / .positive) h' hm' hmin
        · rw [hpack]
          rfl
        · rw [hpack]
          rfl

/-- The least whole number that is not below a positive one is not zero. -/
theorem ceiling_ne_zero {x : Float} (h : 0 < x) : ceiling x ≠ 0 := by
  have hzero : ofCount 0 = 0 := by decide
  simp only [ceiling]
  by_cases hwhole : truncate x = 0
  · rw [hwhole, hzero, if_pos h]
    decide
  · split
    · have hlimit : 0 < wordLimit - 1 := by decide
      omega
    · exact hwhole

end KeyHeat.Number

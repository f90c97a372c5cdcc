import KeyHeat.Json.Record
import KeyHeat.Proofs.Number.Finite
import KeyHeat.Proofs.Number.Word

/-!
# Numbers of JSON texts

Every number that is read is finite: digits that do not fit a count are scaled by a power of ten,
which only divides or else is refused when it overflows. A reader that yields values with a
property is composed of such readers, so the property holds of all that is read from a text.
-/

namespace KeyHeat

open Number

/-- The number is not too large to be a double. -/
def JsonNumber.Finite (n : JsonNumber) : Prop := n.toFloat.isFinite

/-- All numbers in a value are finite. -/
inductive JsonValue.Finite : JsonValue → Prop
  | null : Finite .null
  | bool (b : Bool) : Finite (.bool b)
  | number {n : JsonNumber} (h : n.Finite) : Finite (.number n)
  | string (s : String) : Finite (.string s)
  | array {elements : List JsonValue} (h : ∀ element ∈ elements, Finite element) :
    Finite (.array elements)
  | object {members : List (String × JsonValue)} (h : ∀ m ∈ members, Finite m.2) :
    Finite (.object members)

namespace JsonReader

/-! ## Powers of ten -/

section
open Float.Model Float.Model.UnpackedFloat

theorem atLeast_powerOfTen_max : AtLeast 1 (powerOfTen 308).toModel.unpack := by
  decide +kernel

theorem atLeast_powerOfTen_exact : ∀ k ≤ 22, AtLeast (-53) (powerOfTen k).toModel.unpack := by
  decide

/-- From the twenty-third power on the nearest double is found from the number itself. -/
theorem unpack_powerOfTen {k : Nat} (hlarge : 22 < k) (hle : k ≤ 2048) :
    (powerOfTen k).toModel.unpack =
      (Float.Model.pack (roundWithAccuracy Format.binary64 .positive (2 ^ 53 * 10 ^ k) (-53)
        .exact)).unpack := by
  have hmodel : powerOfTen k =
      Float.ofModel (.pack (UnpackedFloat.ofScientific Format.binary64 1 k)) := by
    unfold powerOfTen Float.ofScientific
    rw [dif_neg (by omega)]
    rfl
  have hscaled : UnpackedFloat.ofScientific Format.binary64 1 k =
      roundWithAccuracy Format.binary64 .positive (2 ^ 53 * 10 ^ k) (-53) .exact := by
    unfold UnpackedFloat.ofScientific
    have hrange : ¬ (k : Int) > 2 ^ Format.binary64.exponentBits := by
      change ¬ (k : Int) > 2 ^ 11
      omega
    have hsmall : ¬ (k : Int) < -(2 ^ Format.binary64.exponentBits + (Nat.log2 1 : Int)) := by
      change ¬ (k : Int) < -(2 ^ 11 + (Nat.log2 1 : Int))
      omega
    rw [dif_neg (by decide), if_neg hrange, if_neg hsmall, if_pos (by omega)]
    rfl
  rw [hmodel, hscaled]

theorem log2_scaledPower_bounds {k : Nat} (hk : k ≤ 307) :
    53 ≤ (2 ^ 53 * 10 ^ k).log2 ∧ (2 ^ 53 * 10 ^ k).log2 ≤ 1073 := by
  have hpos : 0 < 10 ^ k := Nat.pow_pos (by decide)
  have hle : 10 ^ k ≤ 2 ^ 1020 :=
    calc 10 ^ k
      _ ≤ 10 ^ 307 := Nat.pow_le_pow_right (by decide) hk
      _ ≤ 2 ^ 1020 := by decide +kernel
  have hlog : (10 ^ k).log2 ≤ 1020 := log2_le_of_le hle
  rw [Nat.mul_comm, ← Nat.shiftLeft_eq, log2_shiftLeft (by omega)]
  omega

/-- The powers of ten that are doubles are not small. -/
theorem atLeast_powerOfTen {k : Nat} (hk : k ≤ 308) :
    AtLeast (-53) (powerOfTen k).toModel.unpack := by
  by_cases hexact : k ≤ 22
  · exact atLeast_powerOfTen_exact k hexact
  by_cases hsmall : k ≤ 307
  · obtain ⟨hlow, hhigh⟩ := log2_scaledPower_bounds hsmall
    obtain ⟨m, e, h, hround, hm, hmin, hmax⟩ :=
      roundWithAccuracy_normal .positive .exact (show 52 ≤ (2 ^ 53 * 10 ^ k).log2 by omega)
        (show -1022 ≤ (2 ^ 53 * 10 ^ k).log2 + (-53 : Int) by omega)
    rw [unpack_powerOfTen (by omega) (by omega), hround,
      unpack_pack_normal .positive h hm (by omega) (by omega)]
    exact ⟨by omega⟩
  · have hlast : k = 308 := by omega
    rw [hlast]
    exact atLeast_powerOfTen_max.mono (by decide)

end

/-! ## Scaling -/

theorem isFinite_ofCount (n : Nat) : (ofCount n).isFinite :=
  (bounded_ofCount n).isFinite

theorem isFinite_signed (negative : Bool) {x : Float} (h : x.isFinite) :
    (signed negative x).isFinite := by
  cases negative with
  | false => exact h
  | true => exact isFinite_neg h

/-- Repeated division leads from numbers to numbers: its steps make them smaller. -/
theorem isFinite_scaleDown {x : Float} (h : Bounded 12 x.toModel.unpack) (exponent : Nat) :
    (scaleDown x exponent).isFinite := by
  fun_induction scaleDown x exponent with
  | case1 x exponent hle =>
    have hquotient : Bounded 66 (x / powerOfTen exponent).toModel.unpack :=
      (h.div (atLeast_powerOfTen hle) (by decide) (by decide)).unpack_pack (by decide)
    exact hquotient.isFinite
  | case2 x exponent hlarge hzero => exact h.isFinite
  | case3 x exponent hlarge hzero ih =>
    have hstep : Bounded 12 (x / powerOfTen 308).toModel.unpack :=
      (h.div atLeast_powerOfTen_max (by decide) (by decide)).unpack_pack (by decide)
    exact ih hstep

theorem isFinite_of_scaled {negative : Bool} {significand : Nat} {exponent : Int} {x : Float}
    (h : scaled negative significand exponent = .ok x) : x.isFinite := by
  simp only [scaled] at h
  split at h
  · cases h
    exact isFinite_signed negative (isFinite_scaleDown (bounded_ofCount significand) _)
  · split at h
    case isTrue hnegative hle =>
      split at h
      · cases h
      · cases h
        rename_i hinf
        exact isFinite_signed negative (isFinite_mul (isFinite_ofCount significand)
          (atLeast_powerOfTen (by omega)).isFinite hinf)
    case isFalse hnegative hle =>
      split at h
      · cases h
        exact isFinite_signed negative (isFinite_ofCount significand)
      · cases h

/-! ## Numbers -/

/-- Whatever is read has the property. -/
def Yields {α : Type} (P : α → Prop) (read : List Char → Except JsonFault (α × Rest)) : Prop :=
  ∀ ⦃cs a rest⦄, read cs = .ok (a, rest) → P a

theorem yields_exponentPart (negative : Bool) (significand : Nat) (start : Int) :
    Yields (fun x ↦ x.isFinite) (exponentPart negative significand start) := by
  intro cs x rest h
  simp only [exponentPart] at h
  -- the sign of the exponent does not matter
  split at h
  all_goals
    dsimp only at h
    split at h
    · cases h
    · split at h
      · obtain ⟨y, hscaled, hy⟩ := exists_of_bind_eq_ok h
        cases hy
        exact isFinite_of_scaled hscaled
      · split at h
        · cases h
        · cases h
          exact isFinite_signed negative (by decide)

theorem yields_scalePart (negative : Bool) (significand : Nat) (exponent : Int) :
    Yields (fun x ↦ x.isFinite) (scalePart negative significand exponent) := by
  have hplain {cs : List Char} {x : Float} {rest : Rest}
      (h : (scaled negative significand exponent).map (·, cs) = .ok (x, rest)) : x.isFinite := by
    obtain ⟨y, hscaled, hy⟩ := exists_of_map_eq_ok h
    cases hy
    exact isFinite_of_scaled hscaled
  intro cs x rest h
  unfold scalePart at h
  split at h
  · split at h
    · exact yields_exponentPart negative significand exponent h
    · exact hplain h
  · exact hplain h

theorem yields_doublePart (negative : Bool) (significand : Nat) (exponent : Int) :
    Yields (fun x ↦ x.isFinite) (doublePart negative significand exponent) := by
  intro cs x rest h
  unfold doublePart at h
  split at h
  · simp only [fractionPart] at h
    split at h
    · cases h
    · exact yields_scalePart _ _ _ h
  · exact yields_scalePart negative significand exponent h

theorem yields_unsignedNumber (negative : Bool) :
    Yields JsonNumber.Finite (unsignedNumber negative) := by
  intro cs n rest h
  simp only [unsignedNumber] at h
  obtain ⟨⟨whole, after⟩, -, h⟩ := exists_of_bind_eq_ok h
  dsimp only at h
  split at h
  · obtain ⟨⟨x, after⟩, hdouble, h⟩ := exists_of_bind_eq_ok h
    cases h
    exact yields_doublePart _ _ _ hdouble
  · split at h
    · cases h
      exact isFinite_ofCount _
    · split at h
      · cases h
        exact isFinite_neg (isFinite_ofCount _)
      · cases h
        exact isFinite_neg (isFinite_ofCount _)

theorem yields_number : Yields JsonNumber.Finite number := by
  intro cs n rest h
  unfold number at h
  split at h
  · exact yields_unsignedNumber true h
  · exact yields_unsignedNumber false h

/-! ## Values -/

theorem finite_of_mem_setMember {name : String} {value : JsonValue}
    {members : List (String × JsonValue)} (hvalue : value.Finite)
    (hmembers : ∀ m ∈ members, m.2.Finite) :
    ∀ m ∈ JsonValue.setMember name value members, m.2.Finite := by
  induction members with
  | nil => simpa [JsonValue.setMember] using hvalue
  | cons head rest ih =>
    obtain ⟨hhead, hrest⟩ := List.forall_mem_cons.mp hmembers
    unfold JsonValue.setMember
    split
    · exact List.forall_mem_cons.mpr ⟨hvalue, hmembers⟩
    · split
      · exact List.forall_mem_cons.mpr ⟨hvalue, hrest⟩
      · exact List.forall_mem_cons.mpr ⟨hhead, ih hrest⟩

/-- A value, an array and an object that are read with a given number of steps hold finite numbers
only. -/
theorem yields_within (fuel : Nat) :
    (∀ depth, Yields JsonValue.Finite (valueWithin depth · fuel)) ∧
      (∀ depth first done, (∀ element ∈ done, element.Finite) →
        Yields JsonValue.Finite (elementsWithin depth first done · fuel)) ∧
      ∀ depth first done, (∀ m ∈ done, m.2.Finite) →
        Yields JsonValue.Finite (membersWithin depth first done · fuel) := by
  induction fuel with
  | zero =>
    refine ⟨?_, ?_, ?_⟩
    · intro depth cs value rest h
      simp only [valueWithin] at h
      cases h
    · intro depth first done hdone cs value rest h
      simp only [elementsWithin] at h
      cases h
    · intro depth first done hdone cs value rest h
      simp only [membersWithin] at h
      cases h
  | succ fuel ih =>
    obtain ⟨hvalue, helements, hmembers⟩ := ih
    refine ⟨?_, ?_, ?_⟩
    · intro depth cs value rest h
      simp only [valueWithin] at h
      split at h
      · obtain ⟨_, -, hv⟩ := exists_of_map_eq_ok h
        cases hv
        exact .null
      · obtain ⟨_, -, hv⟩ := exists_of_map_eq_ok h
        cases hv
        exact .bool true
      · obtain ⟨_, -, hv⟩ := exists_of_map_eq_ok h
        cases hv
        exact .bool false
      · obtain ⟨_, -, hv⟩ := exists_of_map_eq_ok h
        cases hv
        exact .string _
      · split at h
        · cases h
        · exact helements _ true [] (by simp) h
      · split at h
        · cases h
        · exact hmembers _ true [] (by simp) h
      · obtain ⟨⟨n, after⟩, hnumber, hv⟩ := exists_of_map_eq_ok h
        cases hv
        exact .number (yields_number hnumber)
    · intro depth first done hdone cs value rest h
      simp only [elementsWithin] at h
      obtain ⟨next, -, h⟩ := exists_of_bind_eq_ok h
      cases next with
      | none =>
        obtain ⟨after, -, hv⟩ := exists_of_map_eq_ok h
        cases hv
        exact .array fun element helement ↦ hdone element (List.mem_reverse.mp helement)
      | some cs =>
        obtain ⟨⟨element, after⟩, hread, h⟩ := exists_of_bind_eq_ok h
        exact helements depth false (element :: done)
          (List.forall_mem_cons.mpr ⟨hvalue depth hread, hdone⟩) h
    · intro depth first done hdone cs value rest h
      simp only [membersWithin] at h
      obtain ⟨next, -, h⟩ := exists_of_bind_eq_ok h
      cases next with
      | none =>
        obtain ⟨after, -, hv⟩ := exists_of_map_eq_ok h
        cases hv
        exact .object hdone
      | some found =>
        obtain ⟨colon, -, h⟩ := exists_of_bind_eq_ok h
        obtain ⟨⟨member, after⟩, hread, h⟩ := exists_of_bind_eq_ok h
        exact hmembers depth false _ (finite_of_mem_setMember (hvalue depth hread) hdone) h

theorem yields_value (limits : Limits) : Yields JsonValue.Finite (value limits) :=
  (yields_within limits.steps).1 limits.depth

/-! ## Lists and records -/

section
variable {α σ : Type} {P : α → Prop} {Q : σ → Prop}

theorem yields_elements {read : List Char → Except JsonFault (α × Rest)} (h : Yields P read)
    (limits : Limits) : Yields (fun list ↦ ∀ a ∈ list, P a) (elements read limits) := by
  have hcollect (fuel : Nat) : ∀ first done, (∀ a ∈ done, P a) →
      Yields (fun list ↦ ∀ a ∈ list, P a) (elements.collect read first done · fuel) := by
    induction fuel with
    | zero =>
      intro first done hdone cs list rest h
      simp only [elements.collect] at h
      cases h
    | succ fuel ih =>
      intro first done hdone cs list rest hlist
      simp only [elements.collect] at hlist
      obtain ⟨next, -, hlist⟩ := exists_of_bind_eq_ok hlist
      cases next with
      | none =>
        cases hlist
        exact fun a ha ↦ hdone a (List.mem_reverse.mp ha)
      | some cs =>
        obtain ⟨⟨a, after⟩, hread, hlist⟩ := exists_of_bind_eq_ok hlist
        exact ih false (a :: done) (List.forall_mem_cons.mpr ⟨h hread, hdone⟩) hlist
  exact hcollect limits.steps true [] (by simp)

theorem yields_listOf {read : Limits → List Char → Except JsonFault (α × Rest)}
    (h : ∀ limits, Yields P (read limits)) (limits : Limits) :
    Yields (fun list ↦ ∀ a ∈ list, P a) (listOf read limits) := by
  intro cs list rest hlist
  unfold listOf at hlist
  split at hlist
  · cases hlist
  · obtain ⟨⟨elements, after⟩, helements, hlist⟩ := exists_of_bind_eq_ok hlist
    obtain ⟨closed, -, hlist⟩ := exists_of_bind_eq_ok hlist
    cases hlist
    exact yields_elements (h _) _ helements
  · obtain ⟨found, -, hlist⟩ := exists_of_bind_eq_ok hlist
    cases hlist

/-- A property of the fields that is kept by the reader of every member holds of an object. -/
theorem yields_members {member : σ → String → Except JsonFault (Option (FieldReader σ))}
    {start : σ} (hstart : Q start)
    (h : ∀ fields name reader, Q fields → member fields name = .ok (some reader) → Yields Q reader)
    (limits : Limits) : Yields Q (members member start limits) := by
  have hcollect (fuel : Nat) : ∀ first fields, Q fields →
      Yields Q (members.collect member limits first fields · fuel) := by
    induction fuel with
    | zero =>
      intro first fields hfields cs result rest hresult
      simp only [members.collect] at hresult
      cases hresult
    | succ fuel ih =>
      intro first fields hfields cs result rest hresult
      simp only [members.collect] at hresult
      obtain ⟨next, -, hresult⟩ := exists_of_bind_eq_ok hresult
      cases next with
      | none =>
        cases hresult
        exact hfields
      | some found =>
        obtain ⟨reader, hmember, hresult⟩ := exists_of_bind_eq_ok hresult
        cases reader with
        | none =>
          obtain ⟨colon, -, hresult⟩ := exists_of_bind_eq_ok hresult
          obtain ⟨skipped, -, hresult⟩ := exists_of_bind_eq_ok hresult
          exact ih false fields hfields hresult
        | some reader =>
          obtain ⟨colon, -, hresult⟩ := exists_of_bind_eq_ok hresult
          obtain ⟨⟨updated, after⟩, hread, hresult⟩ := exists_of_bind_eq_ok hresult
          exact ih false updated (h fields found.1 reader hfields hmember hread) hresult
  exact hcollect limits.steps true start hstart

theorem yields_of_onlyOnce {name : String} {old : Option α}
    {read : List Char → Except JsonFault (α × Rest)} {store : α → σ} {reader : FieldReader σ}
    (h : onlyOnce name old read store = .ok (some reader)) (hread : Yields P read)
    (hstore : ∀ a, P a → Q (store a)) : Yields Q reader := by
  cases old with
  | some a => cases h
  | none =>
    cases h
    intro cs fields rest hfields
    obtain ⟨⟨a, after⟩, ha, hfields⟩ := exists_of_map_eq_ok hfields
    cases hfields
    exact hstore a (hread ha)

theorem yields_of_stored {name : String} {old : Option α}
    {read : List Char → Except JsonFault (α × Rest)} {store : α → σ} {reader : FieldReader σ}
    (h : onlyOnce name old read store = .ok (some reader)) (hstore : ∀ a, Q (store a)) :
    Yields Q reader :=
  yields_of_onlyOnce (P := fun _ ↦ True) h (fun _ _ _ _ ↦ trivial) fun a _ ↦ hstore a

theorem yields_trailing {byDefault : α} {read : List Char → Except JsonFault (α × Rest)}
    (hdefault : P byDefault) (h : Yields P read) : Yields P (trailing byDefault read) := by
  intro cs a rest ha
  obtain ⟨next, -, ha⟩ := exists_of_bind_eq_ok ha
  cases next with
  | some cs => exact h ha
  | none =>
    cases ha
    exact hdefault

theorem yields_record {expected : String}
    {ofArray ofObject : Limits → List Char → Except JsonFault (α × Rest)}
    (harray : ∀ limits, Yields P (ofArray limits)) (hobject : ∀ limits, Yields P (ofObject limits))
    (limits : Limits) : Yields P (record expected ofArray ofObject limits) := by
  intro cs a rest ha
  unfold record at ha
  split at ha
  · cases ha
  · cases ha
  · obtain ⟨⟨b, after⟩, hb, ha⟩ := exists_of_bind_eq_ok ha
    obtain ⟨closed, -, ha⟩ := exists_of_bind_eq_ok ha
    cases ha
    exact harray _ hb
  · obtain ⟨⟨b, after⟩, hb, ha⟩ := exists_of_bind_eq_ok ha
    obtain ⟨closed, -, ha⟩ := exists_of_bind_eq_ok ha
    cases ha
    exact hobject _ hb
  · obtain ⟨found, -, ha⟩ := exists_of_bind_eq_ok ha
    cases ha

theorem of_whole {read : Limits → List Char → Except JsonFault (α × Rest)}
    (h : ∀ limits, Yields P (read limits)) {text : String} {a : α} (ha : whole read text = .ok a) :
    P a := by
  obtain ⟨⟨b, rest⟩, hb, ha⟩ := exists_of_bind_eq_ok ha
  dsimp only at ha
  split at ha
  · cases ha
    exact h _ hb
  · cases ha

end

end JsonReader

end KeyHeat

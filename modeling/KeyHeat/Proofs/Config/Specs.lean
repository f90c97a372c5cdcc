import KeyHeat.Proofs.Config.Schema
import KeyHeat.Proofs.Number.Shares
import KeyHeat.Proofs.Separator.Build

/-!
# Specifications of accepted entries

What loading looks at and what construction looks at overlap. The counts, the thresholds and the
dimensions of a sketch are checked when an entry is loaded, and the ratios and the sample size
are not. So a specification that has been loaded is refused for one of the latter or not at all.
-/

namespace KeyHeat

open JsonReader Number

/-! ## Documents -/

theorem ConfigEntry.yields_read (limits : Limits) :
    Yields (fun entry ↦ entry.params.Finite) (ConfigEntry.read limits) := by
  refine yields_record ?_ ?_ limits
  · intro limits cs entry rest h
    obtain ⟨⟨type, afterType⟩, -, h⟩ := exists_of_bind_eq_ok h
    obtain ⟨⟨name, afterName⟩, -, h⟩ := exists_of_bind_eq_ok h
    obtain ⟨⟨params, afterParams⟩, hparams, h⟩ := exists_of_bind_eq_ok h
    cases h
    exact yields_trailing .null (yields_value limits) hparams
  · intro limits cs entry rest h
    obtain ⟨⟨fields, after⟩, hfields, h⟩ := exists_of_bind_eq_ok h
    obtain ⟨type, -, h⟩ := exists_of_bind_eq_ok h
    cases h
    have hread : ∀ params, fields.params = some params → params.Finite := by
      refine yields_members (Q := fun fields : Fields ↦
        ∀ params, fields.params = some params → params.Finite) (by simp) ?_ limits hfields
      intro fields name reader hparams hmember
      unfold member at hmember
      split at hmember
      · exact yields_of_stored hmember fun _ ↦ hparams
      · exact yields_of_stored hmember fun _ ↦ hparams
      · refine yields_of_onlyOnce hmember (yields_value limits) fun params hfinite other hother ↦ ?_
        cases hother
        exact hfinite
      · cases hmember
    cases hparams : fields.params with
    | none => exact .null
    | some params => exact hread params hparams

theorem ConfigDocument.yields_read (limits : Limits) :
    Yields (fun document ↦ ∀ entry ∈ document.entries, entry.params.Finite)
      (record "struct RawConfig" ofArray ofObject limits) := by
  refine yields_record ?_ ?_ limits
  · intro limits cs document rest h
    obtain ⟨⟨operationCount, afterCount⟩, -, h⟩ := exists_of_bind_eq_ok h
    obtain ⟨⟨portion, afterPortion⟩, -, h⟩ := exists_of_bind_eq_ok h
    obtain ⟨⟨entries, afterEntries⟩, hentries, h⟩ := exists_of_bind_eq_ok h
    cases h
    exact yields_trailing (P := fun entries ↦ ∀ entry ∈ entries, entry.params.Finite) (by simp)
      (yields_listOf ConfigEntry.yields_read limits) hentries
  · intro limits cs document rest h
    obtain ⟨⟨fields, after⟩, hfields, h⟩ := exists_of_bind_eq_ok h
    obtain ⟨operationCount, -, h⟩ := exists_of_bind_eq_ok h
    obtain ⟨portion, -, h⟩ := exists_of_bind_eq_ok h
    cases h
    have hread : ∀ entries, fields.entries = some entries →
        ∀ entry ∈ entries, entry.params.Finite := by
      refine yields_members (Q := fun fields : Fields ↦ ∀ entries, fields.entries = some entries →
        ∀ entry ∈ entries, entry.params.Finite) (by simp) ?_ limits hfields
      intro fields name reader hentries hmember
      unfold member at hmember
      split at hmember
      · exact yields_of_stored hmember fun _ ↦ hentries
      · exact yields_of_stored hmember fun _ ↦ hentries
      · refine yields_of_onlyOnce hmember (yields_listOf ConfigEntry.yields_read limits)
          fun entries hfinite other hother ↦ ?_
        cases hother
        exact hfinite
      · cases hmember
    cases hentries : fields.entries with
    | none => simp
    | some entries => exact hread entries hentries

/-- The numbers among the parameters of a document are finite. -/
theorem ConfigDocument.finite_of_ofText {text : String} {document : ConfigDocument}
    (h : ConfigDocument.ofText text = .ok document) :
    ∀ entry ∈ document.entries, entry.params.Finite :=
  of_whole ConfigDocument.yields_read h

/-! ## Parameters -/

namespace Params

/-- All numbers among the parameters are finite. -/
def Finite (params : Params) : Prop := ∀ m ∈ params.members, m.2.Finite

theorem finite_of_readParams {entry : ConfigEntry} {index : Nat} {params : Params}
    (hentry : entry.params.Finite) (h : entry.readParams index = .ok params) : params.Finite := by
  unfold ConfigEntry.readParams at h
  cases hvalue : entry.params with
  | object members =>
    rw [hvalue] at h hentry
    cases h
    cases hentry with
    | object hmembers => exact hmembers
  | null =>
    rw [hvalue] at h
    cases h
    simp [Finite]
  | bool | number | string | array =>
    rw [hvalue] at h
    cases h

theorem isFinite_of_holds {params : Params} (hfinite : params.Finite) {field : String} {x : Float}
    (h : Members.Holds params.members JsonValue.float? field x) : x.isFinite := by
  obtain ⟨value, hlookup, -, hread⟩ := h
  obtain ⟨before, after, hmembers, -⟩ := List.lookup_eq_some_iff.mp hlookup
  have hvalue : value.Finite := hfinite (field, value) (by simp [hmembers])
  cases hvalue with
  | number hn =>
    cases hread
    exact hn
  | null | bool | string | array | object => cases hread

end Params

/-! ## Specifications -/

namespace Spec

/-- What loading an entry makes sure of. -/
def Accepted : Spec → Prop
  | lruK k _ => k ≠ 0
  | window _ threshold => threshold ≠ 0
  | sketchWindow _ epsilon delta threshold _ => threshold ≠ 0 ∧ ∃ width depth,
    CountMin.widthFor epsilon = .ok width ∧ CountMin.depthFor delta = .ok depth ∧
      width * depth ≤ CountMin.counterBudget
  | s3Fifo _ _ ghost => ghost.isFinite
  | lru .. | lfu .. | wTinyLfu .. | lirs .. | heapTopK .. | unimplemented .. => True

/-- What loading an entry leaves to be found out: a ratio that is out of range or a sample size of
zero. -/
def OutOfRange : Spec → Prop
  | wTinyLfu _ tuning => ¬ (0 ≤ tuning.windowRatio ∧ tuning.windowRatio ≤ 1) ∨
    ¬ (0 ≤ tuning.protectedRatio ∧ tuning.protectedRatio ≤ 1) ∨ tuning.sampleSize = some 0
  | lirs _ ratio _ => ¬ (0 < ratio ∧ ratio < 1)
  | s3Fifo _ small ghost => ¬ (0 ≤ small ∧ small ≤ 1) ∨ ghost < 0
  | lru .. | lfu .. | lruK .. | window .. | sketchWindow .. | heapTopK .. | unimplemented .. =>
    False

end Spec

namespace Params

theorem accepted_of_spec {params : Params} {policy : Policy} {spec : Spec}
    (hfinite : params.Finite) (h : params.spec policy = .ok spec) :
    spec.policy = policy ∧ spec.Accepted := by
  by_cases hpolicy : policy.isConfigurable
  · cases describes_of_spec hpolicy h with
    | lru | lfu | wTinyLfu | lirs | arc | hotRing => exact ⟨rfl, trivial⟩
    | lruK _ k_ne => exact ⟨rfl, k_ne⟩
    | window _ _ threshold_ne => exact ⟨rfl, threshold_ne⟩
    | sketchWindow _ _ fits _ _ threshold_ne => exact ⟨rfl, threshold_ne, fits⟩
    | @s3Fifo capacity smallRatio ghostRatio _ _ ghostRatio_eq =>
      cases ghostRatio with
      | none => exact ⟨rfl, show Spec.defaultGhostRatio.isFinite by decide⟩
      | some ghost => exact ⟨rfl, isFinite_of_holds hfinite ghostRatio_eq⟩
  · cases policy with
    | heapTopK =>
      cases h
      exact ⟨rfl, trivial⟩
    | _ => exact absurd rfl hpolicy

end Params

/-! ## Problems of accepted specifications -/

namespace CountMin

/-- A row has a column, however large the error may be. -/
theorem ne_zero_of_widthFor {epsilon : Float} {width : Nat} (h : widthFor epsilon = .ok width) :
    width ≠ 0 := by
  simp only [widthFor] at h
  split at h
  · cases h
  · split at h
    · cases h
    · rename_i hrange _
      cases h
      simp only [Bool.or_eq_true, Bool.not_eq_true', decide_eq_true_eq, not_or,
        Bool.not_eq_false] at hrange
      obtain ⟨⟨hfinite, hpositive⟩, -⟩ := hrange
      exact ceiling_ne_zero (zero_lt_two_div hfinite ((not_le_zero_iff hfinite).mp hpositive))

theorem ne_zero_of_depthFor {delta : Float} {depth : Nat} (h : depthFor delta = .ok depth) :
    depth ≠ 0 := by
  unfold depthFor at h
  split at h
  · cases h
  · cases h
    omega

theorem exists_ofErrorBounds {epsilon delta : Float} {width depth : Nat}
    (hwidth : widthFor epsilon = .ok width) (hdepth : depthFor delta = .ok depth)
    (hbudget : width * depth ≤ counterBudget) :
    ∃ sketch, ofErrorBounds epsilon delta = .ok sketch := by
  have hdimensions : ¬ (width = 0 ∨ depth = 0) :=
    not_or.mpr ⟨ne_zero_of_widthFor hwidth, ne_zero_of_depthFor hdepth⟩
  unfold ofErrorBounds
  rw [hwidth, hdepth]
  change ∃ sketch, ofDimensions width depth = .ok sketch
  rw [ofDimensions, if_neg hdimensions, if_neg (by omega)]
  exact ⟨_, rfl⟩

end CountMin

namespace Spec

theorem within_eq_false_iff {x : Float} : Number.within 0 1 x = false ↔ ¬ (0 ≤ x ∧ x ≤ 1) := by
  rw [← Bool.not_eq_true, Number.within, Bool.and_eq_true, decide_eq_true_iff, decide_eq_true_iff]

/-- The check of a ratio that lies strictly between zero and one leaves no room for infinities. -/
theorem between_iff {x : Float} : (!x.isFinite || x <= 0 || x >= 1) = true ↔ ¬ (0 < x ∧ x < 1) := by
  by_cases hfinite : x.isFinite
  · rw [← not_le_zero_iff hfinite, ← not_one_le_iff hfinite, ← not_or, Classical.not_not]
    simp only [hfinite, Bool.not_true, Bool.false_or, Bool.or_eq_true, decide_eq_true_eq, ge_iff_le]
  · have hother : ¬ (0 < x ∧ x < 1) := fun h ↦ hfinite (isFinite_of_between h.1 h.2)
    simp only [hfinite, hother, Bool.not_false, Bool.true_or, not_false_eq_true]

/-- An accepted specification has a problem exactly when it is out of range. -/
theorem problem?_eq_none_iff {spec : Spec} (h : spec.Accepted) :
    spec.problem? = none ↔ ¬ spec.OutOfRange := by
  cases spec with
  | lru | lfu | heapTopK | unimplemented => simp [problem?, OutOfRange]
  | lruK k capacity => simp [problem?, OutOfRange, show k ≠ 0 from h]
  | window span threshold => simp [problem?, OutOfRange, show threshold ≠ 0 from h]
  | sketchWindow windowSize epsilon delta threshold bounded =>
    obtain ⟨hthreshold, width, depth, hwidth, hdepth, hbudget⟩ := h
    obtain ⟨sketch, hsketch⟩ := CountMin.exists_ofErrorBounds hwidth hdepth hbudget
    simp [problem?, OutOfRange, hthreshold, hsketch]
  | wTinyLfu capacity tuning =>
    simp only [problem?, OutOfRange, within_eq_false_iff]
    split_ifs with hwindow hprotected hsample
    · exact iff_of_false not_false fun h ↦ h (.inr (.inr hsample))
    · have hpassed := not_or.mpr ⟨not_not_intro hprotected, hsample⟩
      exact iff_of_true rfl (not_or.mpr ⟨not_not_intro hwindow, hpassed⟩)
    · exact iff_of_false not_false fun h ↦ h (.inr (.inl hprotected))
    · exact iff_of_false not_false fun h ↦ h (.inl hwindow)
  | lirs capacity ratio maxNonResident =>
    simp only [problem?, OutOfRange, between_iff]
    split_ifs with hrange
    · exact iff_of_true rfl (not_not_intro hrange)
    · exact iff_of_false not_false (not_not_intro hrange)
  | s3Fifo capacity small ghost =>
    have hghost : ghost.isFinite = true := h
    simp only [problem?, OutOfRange, Bool.not_eq_true', within_eq_false_iff, hghost, Bool.not_true,
      Bool.false_or, decide_eq_true_eq]
    split_ifs with hsmall hnegative
    · exact iff_of_false not_false fun h ↦ h (.inr hnegative)
    · exact iff_of_true rfl (not_or.mpr ⟨not_not_intro hsmall, hnegative⟩)
    · exact iff_of_false not_false fun h ↦ h (.inl hsmall)

/-- A share of a capacity that is a double itself is at most the capacity, so nothing is cut short
below two to the power 53. -/
theorem overflow?_eq_none {spec : Spec} (hrange : ¬ spec.OutOfRange)
    (hsmall : ∀ capacity, spec.capacity? = some capacity → capacity < 2 ^ 53) :
    spec.overflow? = none := by
  have hlimit : wordLimit = 2 ^ 64 := rfl
  cases spec with
  | lru | lfu | lruK | window | sketchWindow | lirs | heapTopK | unimplemented => rfl
  | wTinyLfu capacity tuning =>
    have hcapacity : capacity < 2 ^ 53 := hsmall capacity rfl
    obtain ⟨hlow, hhigh⟩ := Classical.not_not.mp (not_or.mp (not_or.mp hrange).2).1
    have hwindow : TinyLfu.windowShare capacity tuning.windowRatio ≤ capacity :=
      Nat.min_le_right _ _
    simp only [overflow?]
    generalize TinyLfu.windowShare capacity tuning.windowRatio = windowQuota at hwindow
    have hmain : capacity - windowQuota < 2 ^ 53 := by omega
    have hshare : TinyLfu.guardedShare (capacity - windowQuota) tuning.protectedRatio ≤
        capacity - windowQuota := truncate_mul_le hmain hlow hhigh
    rw [if_neg (by omega), if_neg (Nat.not_lt.mpr hshare), if_neg (by omega)]
  | s3Fifo capacity smallRatio ghostRatio =>
    have hcapacity : capacity < 2 ^ 53 := hsmall capacity rfl
    obtain ⟨hratio, -⟩ := not_or.mp hrange
    obtain ⟨hlow, hhigh⟩ := Classical.not_not.mp hratio
    have hshare : S3Fifo.smallShare capacity smallRatio ≤ capacity :=
      truncate_mul_le hcapacity hlow hhigh
    simp only [overflow?]
    rw [if_neg (Nat.not_lt.mpr hshare), if_neg (by omega)]

end Spec

end KeyHeat

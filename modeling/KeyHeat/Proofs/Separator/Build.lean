import KeyHeat.Proofs.Policy.S3Fifo
import KeyHeat.Proofs.Policy.TinyLfu
import KeyHeat.Separator.Basic

/-!
# Building separators

Whether a specification can be built is decided by its parameters alone, and the type of the keys
has no part in it. The first parameter that is out of range is named in the text of the error,
which never looks like one that names a position. Parameters in range can still give sizes that are
not: two policies divide their capacity by a product that is rounded, and are cut short where the
share is more than all there is.
-/

namespace KeyHeat

/-! ## The texts of the errors -/

namespace BuildProblem

/-- What the text of a problem begins with: the parameter that is out of range, or the sketch. -/
def subject : BuildProblem → String
  | historyDepthZero => "k"
  | thresholdZero => "threshold"
  | sampleSizeZero => "sample_size"
  | ratioOutOfRange name _ => name
  | lirRatioOutOfRange _ => "lir_ratio"
  | ghostRatioOutOfRange _ => "ghost_ratio"
  | epsilonOutOfRange _ | epsilonTooSmall .. => "epsilon"
  | deltaOutOfRange _ => "delta"
  | emptySketch .. | sketchTooLarge .. => "sketch"

theorem toList_prefix_append {head text : String} (h : head.toList <+: text.toList)
    (rest : String) : head.toList <+: (text ++ rest).toList := by
  rw [String.toList_append]
  exact h.trans (List.prefix_append _ _)

theorem subject_prefix_message (problem : BuildProblem) :
    problem.subject.toList <+: problem.message.toList := by
  cases problem with
  | historyDepthZero => decide
  | thresholdZero => decide
  | sampleSizeZero => decide
  | ratioOutOfRange name ratio =>
    exact toList_prefix_append (toList_prefix_append (List.prefix_refl _) _) _
  | lirRatioOutOfRange ratio =>
    have h : "lir_ratio".toList <+: "lir_ratio must be in (0.0, 1.0), got ".toList := by decide
    exact toList_prefix_append h _
  | ghostRatioOutOfRange ratio =>
    have h : "ghost_ratio".toList <+:
        "ghost_ratio must be finite and non-negative, got ".toList := by decide
    exact toList_prefix_append h _
  | epsilonOutOfRange epsilon =>
    have h : "epsilon".toList <+: "epsilon must be in (0, 1], got ".toList := by decide
    exact toList_prefix_append h _
  | epsilonTooSmall epsilon width budget =>
    have h : "epsilon".toList <+: "epsilon ".toList := by decide
    iterate 5 refine toList_prefix_append ?_ _
    exact h
  | deltaOutOfRange delta =>
    have h : "delta".toList <+: "delta must be in (0, 1), got ".toList := by decide
    exact toList_prefix_append h _
  | emptySketch width depth =>
    have h : "sketch".toList <+: "sketch dimensions must be non-zero, got ".toList := by decide
    iterate 3 refine toList_prefix_append ?_ _
    exact h
  | sketchTooLarge width depth budget =>
    have h : "sketch".toList <+: "sketch of ".toList := by decide
    iterate 6 refine toList_prefix_append ?_ _
    exact h

end BuildProblem

namespace CountMin

theorem subject_of_widthFor {epsilon : Float} {problem : BuildProblem}
    (h : widthFor epsilon = .error problem) : problem.subject = "epsilon" := by
  simp only [widthFor] at h
  split_ifs at h
  · cases h
    rfl
  · cases h
    rfl

theorem subject_of_depthFor {delta : Float} {problem : BuildProblem}
    (h : depthFor delta = .error problem) : problem.subject = "delta" := by
  unfold depthFor at h
  split_ifs at h
  · cases h
    rfl

theorem subject_of_ofDimensions {width depth : Nat} {problem : BuildProblem}
    (h : ofDimensions width depth = .error problem) : problem.subject = "sketch" := by
  unfold ofDimensions at h
  split_ifs at h
  · cases h
    rfl
  · cases h
    rfl

theorem subject_of_ofErrorBounds {epsilon delta : Float} {problem : BuildProblem}
    (h : ofErrorBounds epsilon delta = .error problem) :
    problem.subject ∈ ["epsilon", "delta", "sketch"] := by
  unfold ofErrorBounds at h
  cases hwidth : widthFor epsilon with
  | error other =>
    rw [hwidth] at h
    cases h
    simp [subject_of_widthFor hwidth]
  | ok width =>
    cases hdepth : depthFor delta with
    | error other =>
      rw [hwidth, hdepth] at h
      cases h
      simp [subject_of_depthFor hdepth]
    | ok depth =>
      rw [hwidth, hdepth] at h
      simp [subject_of_ofDimensions h]

end CountMin

/-! ## Problems -/

namespace Spec

/-- What keeps a specification from being built. -/
def problem? : Spec → Option BuildProblem
  | lruK k _ => if k = 0 then some .historyDepthZero else none
  | window _ threshold => if threshold = 0 then some .thresholdZero else none
  | sketchWindow _ epsilon delta threshold _ =>
    if threshold = 0 then some .thresholdZero
    else
      match CountMin.ofErrorBounds epsilon delta with
      | .ok _ => none
      | .error problem => some problem
  | wTinyLfu _ tuning =>
    if Number.within 0 1 tuning.windowRatio = false then
      some (.ratioOutOfRange "window_ratio" tuning.windowRatio)
    else if Number.within 0 1 tuning.protectedRatio = false then
      some (.ratioOutOfRange "protected_ratio" tuning.protectedRatio)
    else if tuning.sampleSize = some 0 then some .sampleSizeZero
    else none
  | lirs _ ratio _ =>
    if !ratio.isFinite || ratio <= 0 || ratio >= 1 then some (.lirRatioOutOfRange ratio) else none
  | s3Fifo _ small ghost =>
    if !Number.within 0 1 small then some (.ratioOutOfRange "small_ratio" small)
    else if !ghost.isFinite || ghost < 0 then some (.ghostRatioOutOfRange ghost)
    else none
  | lru .. | lfu .. | heapTopK .. | unimplemented .. => none

/-- The bound on the number of resident keys, where there is one. -/
def capacity? : Spec → Option Nat
  | lru capacity => some capacity
  | lfu capacity _ => some capacity
  | lruK _ capacity => some capacity
  | window .. => none
  | sketchWindow windowSize _ _ _ bounded => if bounded then some windowSize else none
  | wTinyLfu capacity _ => some capacity
  | lirs capacity _ _ => some capacity
  | s3Fifo capacity _ _ => some capacity
  | heapTopK k _ => some k
  | unimplemented _ => none

/-- The operation that leaves the range of words when the sizes of a specification are computed. -/
def overflow? : Spec → Option Overflow
  | wTinyLfu capacity tuning =>
    let windowQuota := TinyLfu.windowShare capacity tuning.windowRatio
    let mainQuota := capacity - windowQuota
    if Number.wordLimit ≤ windowQuota + 1 then some .addition
    else if mainQuota < TinyLfu.guardedShare mainQuota tuning.protectedRatio then some .subtraction
    else if Number.wordLimit / 2 < max capacity 8 then some .addition
    else none
  | s3Fifo capacity smallRatio _ =>
    let smallQuota := S3Fifo.smallShare capacity smallRatio
    if capacity < smallQuota then some .subtraction
    else if Number.wordLimit ≤ max smallQuota (capacity - smallQuota) + 1 then some .addition
    else none
  | lru .. | lfu .. | lruK .. | window .. | sketchWindow .. | lirs .. | heapTopK ..
  | unimplemented .. => none

/-- Why a specification is not built: sizes are computed only once no parameter is out of range. -/
def halt? (spec : Spec) : Option (Halt BuildProblem) :=
  match spec.problem? with
  | some problem => some (.refused problem)
  | none => spec.overflow?.map .overflow

theorem halt?_eq_refused_iff {spec : Spec} {problem : BuildProblem} :
    spec.halt? = some (.refused problem) ↔ spec.problem? = some problem := by
  unfold halt?
  cases spec.problem? <;> simp

theorem halt?_eq_overflow_iff {spec : Spec} {operation : Overflow} :
    spec.halt? = some (.overflow operation) ↔
      spec.problem? = none ∧ spec.overflow? = some operation := by
  unfold halt?
  cases spec.problem? <;> simp

theorem halt?_eq_none_iff {spec : Spec} :
    spec.halt? = none ↔ spec.problem? = none ∧ spec.overflow? = none := by
  unfold halt?
  cases spec.problem? <;> simp

/-- The parameters that problems are about. -/
def subjects : List String :=
  ["k", "threshold", "window_ratio", "protected_ratio", "sample_size", "lir_ratio", "small_ratio",
    "ghost_ratio", "epsilon", "delta", "sketch"]

theorem subject_of_problem? {spec : Spec} {problem : BuildProblem}
    (h : spec.problem? = some problem) : problem.subject ∈ subjects := by
  cases spec with
  | sketchWindow windowSize epsilon delta threshold bounded =>
    simp only [problem?] at h
    split_ifs at h with hzero
    · cases h
      decide
    · cases hsketch : CountMin.ofErrorBounds epsilon delta with
      | ok sketch => simp [hsketch] at h
      | error problem =>
        rw [hsketch] at h
        cases h
        exact List.subset_def.mp (by decide) (CountMin.subject_of_ofErrorBounds hsketch)
  | lru | lfu | heapTopK | unimplemented => cases h
  | lruK | window | wTinyLfu | lirs | s3Fifo =>
    simp only [problem?] at h
    split_ifs at h <;> cases h <;> exact of_decide_eq_true rfl

/-- The text of a problem does not look like one that names a position. -/
theorem not_startsWith_of_problem? {spec : Spec} {problem : BuildProblem}
    (h : spec.problem? = some problem) : ¬ problem.message.startsWith "heat_separators[" := by
  have hsubjects : ∀ subject ∈ subjects, ¬ "heat_separators[".toList <+: subject.toList ∧
      ¬ subject.toList <+: "heat_separators[".toList := by decide
  obtain ⟨hlong, hshort⟩ := hsubjects problem.subject (subject_of_problem? h)
  rw [String.startsWith_string_iff]
  intro hprefix
  obtain h | h := List.prefix_or_prefix_of_prefix hprefix problem.subject_prefix_message
  · exact hlong h
  · exact hshort h

end Spec

/-! ## Construction -/

namespace Separator

variable {κ : Type} [BEq κ] [Hashable κ]

/-- A specification that is built, or is not for the reason given. -/
def Builds (spec : Spec) (outcome : Except (Halt BuildProblem) (Separator κ)) : Prop :=
  match spec.halt? with
  | some halt => outcome = .error halt
  | none => ∃ separator, outcome = .ok separator ∧ separator.policy = spec.policy

theorem builds_wTinyLfu (capacity : Nat) (tuning : TinyLfuTuning) :
    Builds (κ := κ) (.wTinyLfu capacity tuning) (build (.wTinyLfu capacity tuning)) := by
  have hshared : TinyLfu.windowShare capacity tuning.windowRatio +
      (capacity - TinyLfu.windowShare capacity tuning.windowRatio) = capacity :=
    Nat.add_sub_of_le (Nat.min_le_right _ _)
  simp only [Builds, build, Spec.halt?, Spec.problem?, Spec.overflow?, TinyLfu.create,
    TinyLfu.checkRatio, TinyLfu.checkSizes_eq, hshared]
  cases Number.within 0 1 tuning.windowRatio with
  | false => rfl
  | true =>
    cases Number.within 0 1 tuning.protectedRatio with
    | false => rfl
    | true =>
      by_cases hzero : tuning.sampleSize = some 0
      · simp only [hzero]
        rfl
      · simp only [hzero, Bool.true_eq_false, if_false]
        split_ifs
        · rfl
        · rfl
        · rfl
        · exact ⟨_, rfl, rfl⟩

theorem builds_s3Fifo (capacity : Nat) (smallRatio ghostRatio : Float) :
    Builds (κ := κ) (.s3Fifo capacity smallRatio ghostRatio)
      (build (.s3Fifo capacity smallRatio ghostRatio)) := by
  simp only [Builds, build, Spec.halt?, Spec.problem?, Spec.overflow?, S3Fifo.create,
    S3Fifo.mainShare_eq]
  cases Number.within 0 1 smallRatio with
  | false => rfl
  | true =>
    cases !ghostRatio.isFinite || ghostRatio < 0 with
    | true => rfl
    | false =>
      simp only [Bool.not_true, Bool.false_eq_true, if_false]
      split_ifs
      · rfl
      · rfl
      · exact ⟨_, rfl, rfl⟩

/-- A specification is built, and gives a separator of its policy, unless something is against
it. -/
theorem builds (spec : Spec) : Builds (κ := κ) spec (build spec) := by
  cases spec with
  | lru capacity => exact ⟨_, rfl, rfl⟩
  | lfu capacity minFrequency => exact ⟨_, rfl, rfl⟩
  | lruK k capacity =>
    simp only [Builds, build, Spec.halt?, Spec.problem?, LruK.create]
    split_ifs
    · rfl
    · exact ⟨_, rfl, rfl⟩
  | window span threshold =>
    simp only [Builds, build, Spec.halt?, Spec.problem?, SlidingWindow.create]
    split_ifs
    · rfl
    · exact ⟨_, rfl, rfl⟩
  | sketchWindow windowSize epsilon delta threshold bounded =>
    simp only [Builds, build, Spec.halt?, Spec.problem?, SketchWindow.create]
    split_ifs
    · rfl
    · cases CountMin.ofErrorBounds epsilon delta with
      | error problem => rfl
      | ok sketch => exact ⟨_, rfl, rfl⟩
  | wTinyLfu capacity tuning => exact builds_wTinyLfu capacity tuning
  | lirs capacity ratio maxNonResident =>
    simp only [Builds, build, Spec.halt?, Spec.problem?, Lirs.create]
    split_ifs
    · rfl
    · exact ⟨_, rfl, rfl⟩
  | s3Fifo capacity smallRatio ghostRatio => exact builds_s3Fifo capacity smallRatio ghostRatio
  | heapTopK k threshold => exact ⟨_, rfl, rfl⟩
  | unimplemented policy => exact ⟨_, rfl, rfl⟩

theorem build_cases (spec : Spec) :
    (∃ halt, spec.halt? = some halt ∧ build (κ := κ) spec = .error halt) ∨
      spec.halt? = none ∧ ∃ separator : Separator κ, build spec = .ok separator ∧
        separator.policy = spec.policy := by
  have hbuilds := builds (κ := κ) spec
  unfold Builds at hbuilds
  cases hhalt : spec.halt? with
  | some halt =>
    rw [hhalt] at hbuilds
    exact .inl ⟨halt, rfl, hbuilds⟩
  | none =>
    rw [hhalt] at hbuilds
    exact .inr ⟨rfl, hbuilds⟩

theorem build_eq_error_iff {spec : Spec} {halt : Halt BuildProblem} :
    build (κ := κ) spec = .error halt ↔ spec.halt? = some halt := by
  obtain ⟨other, hhalt, hbuild⟩ | ⟨hhalt, separator, hbuild, -⟩ := build_cases (κ := κ) spec
  · simp [hhalt, hbuild]
  · simp [hhalt, hbuild]

theorem build_eq_refused_iff {spec : Spec} {problem : BuildProblem} :
    build (κ := κ) spec = .error (.refused problem) ↔ spec.problem? = some problem := by
  rw [build_eq_error_iff, Spec.halt?_eq_refused_iff]

end Separator

end KeyHeat

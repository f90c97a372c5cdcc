import KeyHeat.Config.Load
import KeyHeat.Proofs.Json.Finite

/-!
# The parameters of each policy

Which parameters a policy takes is a relation with one rule for each configurable policy: members
that must be there, members that may be missing and then have a default, and bounds. An object is
accepted exactly when a rule applies, and the rule gives the specification. A refusal names the
position of the entry and a parameter of the policy, whatever else the object holds.
-/

namespace KeyHeat

theorem bind_ok {ε α β : Type} {outcome : Except ε α} {next : α → Except ε β} {a : α} {b : β}
    (h : outcome = .ok a) (hnext : next a = .ok b) : outcome >>= next = .ok b := by
  rw [h]
  exact hnext

/-! ## Tags -/

namespace Policy

/-- The types of entries that are not ignored. -/
def tags : List String :=
  ["lru", "lfu", "lruk", "window", "sketch_window", "w_tinylfu", "lirs", "s3_fifo", "arc",
    "hotring"]

theorem tag_inj {policy other : Policy} (h : policy.tag = other.tag) : policy = other := by
  revert h
  cases policy <;> cases other <;> decide

theorem ofTag?_eq_some_iff {type : String} {policy : Policy} :
    ofTag? type = some policy ↔ policy.isConfigurable ∧ policy.tag = type := by
  constructor
  · intro h
    simpa using List.find?_some h
  · rintro ⟨hconfigurable, rfl⟩
    revert hconfigurable
    cases policy <;> decide

theorem mem_tags_iff {type : String} :
    type ∈ tags ↔ ∃ policy : Policy, policy.isConfigurable ∧ policy.tag = type := by
  constructor
  · intro h
    have hall : ∀ known ∈ tags, ∃ policy ∈ all, policy.isConfigurable ∧ policy.tag = known := by
      decide
    obtain ⟨policy, -, hpolicy⟩ := hall type h
    exact ⟨policy, hpolicy⟩
  · rintro ⟨policy, hconfigurable, rfl⟩
    revert hconfigurable
    cases policy <;> decide

/-- The parameters that an entry may have. -/
def fields : Policy → List String
  | lru | arc => ["capacity"]
  | lfu => ["capacity", "min_freq"]
  | lruK => ["k", "capacity"]
  | window => ["window_size_ms", "window_size", "threshold"]
  | sketchWindow => ["epsilon", "delta", "window_size", "threshold", "enable_lru"]
  | wTinyLfu => ["capacity", "window_ratio", "protected_ratio", "sample_size", "seed"]
  | lirs => ["capacity", "lir_ratio", "max_nonresident"]
  | s3Fifo => ["capacity", "small_ratio", "ghost_ratio"]
  | hotRing | heapTopK => []

end Policy

/-! ## Rules -/

/-- The members of an object of parameters. -/
abbrev Members := List (String × JsonValue)

namespace Members

open JsonValue (natural? float? bool?)

section

variable (members : Members) {α : Type} (read : JsonValue → Option α) (field : String)

/-- A parameter is missing or null. -/
def Lacks : Prop := members.lookup field = none ∨ members.lookup field = some .null

/-- A parameter is not null and has the given value. -/
def Holds (a : α) : Prop :=
  ∃ value, members.lookup field = some value ∧ value ≠ .null ∧ read value = some a

/-- A parameter that need not be there. -/
def Offers : Option α → Prop
  | none => members.Lacks field
  | some a => members.Holds read field a

/-- The length of a time window; the second name counts only if the first one is not used. -/
def HoldsSpan (span : Nat) : Prop :=
  members.Holds natural? "window_size_ms" span ∨
    members.Lacks "window_size_ms" ∧ members.Holds natural? "window_size" span

end

/-- A sketch with these error bounds has dimensions, and they are within the budget. -/
def Fits (epsilon delta : Float) : Prop :=
  ∃ width depth, CountMin.widthFor epsilon = .ok width ∧ CountMin.depthFor delta = .ok depth ∧
    width * depth ≤ CountMin.counterBudget

/-- The parameters ask for the specification, one rule for each policy. -/
inductive Describes (members : Members) : Policy → Spec → Prop
  | lru {capacity : Nat} (capacity_eq : members.Holds natural? "capacity" capacity) :
    Describes members .lru (.lru capacity)
  | lfu {capacity : Nat} {minFrequency : Option Nat}
    (capacity_eq : members.Holds natural? "capacity" capacity)
    (minFrequency_eq : members.Offers natural? "min_freq" minFrequency) :
    Describes members .lfu (.lfu capacity (minFrequency.getD 1))
  | lruK {k capacity : Nat} (k_eq : members.Holds natural? "k" k) (k_ne : k ≠ 0)
    (capacity_eq : members.Holds natural? "capacity" capacity) :
    Describes members .lruK (.lruK k capacity)
  | window {span threshold : Nat} (span_eq : members.HoldsSpan span)
    (threshold_eq : members.Holds natural? "threshold" threshold) (threshold_ne : threshold ≠ 0) :
    Describes members .window (.window span threshold)
  | sketchWindow {epsilon delta : Float} {windowSize threshold : Nat} {bounded : Bool}
    (epsilon_eq : members.Holds float? "epsilon" epsilon)
    (delta_eq : members.Holds float? "delta" delta) (fits : Fits epsilon delta)
    (windowSize_eq : members.Holds natural? "window_size" windowSize)
    (threshold_eq : members.Holds natural? "threshold" threshold) (threshold_ne : threshold ≠ 0)
    (bounded_eq : members.Holds bool? "enable_lru" bounded) :
    Describes members .sketchWindow (.sketchWindow windowSize epsilon delta threshold bounded)
  | wTinyLfu {capacity : Nat} {windowRatio protectedRatio : Option Float}
    {sampleSize seed : Option Nat}
    (capacity_eq : members.Holds natural? "capacity" capacity)
    (windowRatio_eq : members.Offers float? "window_ratio" windowRatio)
    (protectedRatio_eq : members.Offers float? "protected_ratio" protectedRatio)
    (sampleSize_eq : members.Offers natural? "sample_size" sampleSize)
    (seed_eq : members.Offers natural? "seed" seed) :
    Describes members .wTinyLfu (.wTinyLfu capacity
      { windowRatio := windowRatio.getD 0.01
        protectedRatio := protectedRatio.getD 0.8
        sampleSize
        seed := (seed.map UInt64.ofNat).getD 0 })
  | lirs {capacity : Nat} {lirRatio : Option Float} {maxNonResident : Option Nat}
    (capacity_eq : members.Holds natural? "capacity" capacity)
    (lirRatio_eq : members.Offers float? "lir_ratio" lirRatio)
    (maxNonResident_eq : members.Offers natural? "max_nonresident" maxNonResident) :
    Describes members .lirs (.lirs capacity (lirRatio.getD Spec.defaultLirRatio) maxNonResident)
  | s3Fifo {capacity : Nat} {smallRatio ghostRatio : Option Float}
    (capacity_eq : members.Holds natural? "capacity" capacity)
    (smallRatio_eq : members.Offers float? "small_ratio" smallRatio)
    (ghostRatio_eq : members.Offers float? "ghost_ratio" ghostRatio) :
    Describes members .s3Fifo (.s3Fifo capacity (smallRatio.getD Spec.defaultSmallRatio)
      (ghostRatio.getD Spec.defaultGhostRatio))
  | arc {capacity : Nat} (capacity_eq : members.Holds natural? "capacity" capacity) :
    Describes members .arc (.unimplemented .arc)
  | hotRing : Describes members .hotRing (.unimplemented .hotRing)

end Members

namespace Params

open Members

/-! ## Readers -/

section

variable {params : Params} {field : String}

theorem find?_eq_none_iff : params.find? field = none ↔ Lacks params.members field := by
  unfold find? Lacks
  cases params.members.lookup field with
  | none => simp
  | some value => cases value <;> simp [JsonValue.isNull]

theorem find?_eq_some_iff {value : JsonValue} :
    params.find? field = some value ↔ params.members.lookup field = some value ∧ value ≠ .null := by
  unfold find?
  rw [Option.filter_eq_some_iff]
  cases value <;> simp [JsonValue.isNull]

variable {α : Type} {what : String} {read : JsonValue → Option α}

theorem offers_iff {given : Option α} : Offers params.members read field given ↔
    match params.find? field with
    | none => given = none
    | some value => given.isSome ∧ read value = given := by
  cases given with
  | none =>
    rw [Offers, ← find?_eq_none_iff]
    cases params.find? field <;> simp
  | some a =>
    simp only [Offers, Holds, ← and_assoc, ← find?_eq_some_iff]
    cases params.find? field <;> simp

theorem optional_eq_ok_iff {given : Option α} :
    params.optional what read field = .ok given ↔ Offers params.members read field given := by
  rw [offers_iff, optional]
  cases params.find? field with
  | none =>
    dsimp only
    rw [Except.ok.injEq, eq_comm]
  | some value =>
    dsimp only
    cases read value with
    | none =>
      refine iff_of_false nofun ?_
      rintro ⟨hgiven, rfl⟩
      cases hgiven
    | some a =>
      rw [Except.ok.injEq]
      refine ⟨?_, And.right⟩
      rintro rfl
      exact ⟨rfl, rfl⟩

theorem required_eq_ok_iff {a : α} :
    params.required what read field = .ok a ↔ Holds params.members read field a := by
  constructor
  · intro h
    obtain ⟨given, hgiven, h⟩ := exists_of_bind_eq_ok h
    cases given with
    | none => cases h
    | some b =>
      cases h
      exact optional_eq_ok_iff.mp hgiven
  · intro h
    have hgiven : params.optional what read field = .ok (some a) := optional_eq_ok_iff.mpr h
    exact bind_ok hgiven rfl

end

section

variable {params : Params}

theorem positive_eq_ok_iff {field : String} {n : Nat} :
    params.positive field = .ok n ↔ Holds params.members JsonValue.natural? field n ∧ n ≠ 0 := by
  constructor
  · intro h
    obtain ⟨m, hm, h⟩ := exists_of_bind_eq_ok h
    cases m with
    | zero => cases h
    | succ m =>
      cases h
      exact ⟨required_eq_ok_iff.mp hm, Nat.succ_ne_zero m⟩
  · rintro ⟨hholds, hn⟩
    refine bind_ok (required_eq_ok_iff.mpr hholds) ?_
    cases n with
    | zero => exact absurd rfl hn
    | succ m => rfl

theorem span_eq_ok_iff {span : Nat} : params.span = .ok span ↔ HoldsSpan params.members span := by
  constructor
  · intro h
    obtain ⟨given, hgiven, h⟩ := exists_of_bind_eq_ok h
    have hfirst := optional_eq_ok_iff.mp hgiven
    cases given with
    | some ms =>
      cases h
      exact .inl hfirst
    | none =>
      obtain ⟨other, hother, h⟩ := exists_of_bind_eq_ok h
      cases other with
      | none => cases h
      | some ms =>
        cases h
        exact .inr ⟨hfirst, optional_eq_ok_iff.mp hother⟩
  · rintro (hholds | ⟨hlacks, hholds⟩)
    · have hfirst : params.natural? "window_size_ms" = .ok (some span) :=
        optional_eq_ok_iff.mpr hholds
      exact bind_ok hfirst rfl
    · have hfirst : params.natural? "window_size_ms" = .ok none := optional_eq_ok_iff.mpr hlacks
      have hsecond : params.natural? "window_size" = .ok (some span) :=
        optional_eq_ok_iff.mpr hholds
      exact bind_ok hfirst (bind_ok hsecond rfl)

theorem sized_eq_ok_iff {field : String} {outcome : Except BuildProblem Nat} {n : Nat} :
    params.sized field outcome = .ok n ↔ outcome = .ok n := by
  cases outcome with
  | ok m => rw [sized, Except.ok.injEq, Except.ok.injEq]
  | error problem => exact iff_of_false nofun nofun

theorem errorBounds_eq_ok_iff {epsilon delta : Float} :
    params.errorBounds = .ok (epsilon, delta) ↔
      Holds params.members JsonValue.float? "epsilon" epsilon ∧
        Holds params.members JsonValue.float? "delta" delta ∧ Fits epsilon delta := by
  constructor
  · intro h
    obtain ⟨e, hepsilon, h⟩ := exists_of_bind_eq_ok h
    obtain ⟨d, hdelta, h⟩ := exists_of_bind_eq_ok h
    obtain ⟨width, hwidth, h⟩ := exists_of_bind_eq_ok h
    obtain ⟨depth, hdepth, h⟩ := exists_of_bind_eq_ok h
    split at h
    · cases h
    · cases h
      exact ⟨required_eq_ok_iff.mp hepsilon, required_eq_ok_iff.mp hdelta, width, depth,
        sized_eq_ok_iff.mp hwidth, sized_eq_ok_iff.mp hdepth, by omega⟩
  · rintro ⟨hepsilon, hdelta, width, depth, hwidth, hdepth, hbudget⟩
    refine bind_ok (required_eq_ok_iff.mpr hepsilon) ?_
    refine bind_ok (required_eq_ok_iff.mpr hdelta) ?_
    refine bind_ok (sized_eq_ok_iff.mpr hwidth) ?_
    refine bind_ok (sized_eq_ok_iff.mpr hdepth) ?_
    exact if_neg (by omega)

/-! ## Specifications -/

theorem describes_of_spec {policy : Policy} {spec : Spec} (hpolicy : policy.isConfigurable)
    (h : params.spec policy = .ok spec) : Describes params.members policy spec := by
  cases policy with
  | lru =>
    obtain ⟨capacity, hcapacity, ⟨⟩⟩ := exists_of_bind_eq_ok h
    exact .lru (required_eq_ok_iff.mp hcapacity)
  | lfu =>
    obtain ⟨capacity, hcapacity, h⟩ := exists_of_bind_eq_ok h
    obtain ⟨minFrequency, hminFrequency, ⟨⟩⟩ := exists_of_bind_eq_ok h
    exact .lfu (required_eq_ok_iff.mp hcapacity) (optional_eq_ok_iff.mp hminFrequency)
  | lruK =>
    obtain ⟨k, hk, h⟩ := exists_of_bind_eq_ok h
    obtain ⟨capacity, hcapacity, ⟨⟩⟩ := exists_of_bind_eq_ok h
    obtain ⟨hholds, hne⟩ := positive_eq_ok_iff.mp hk
    exact .lruK hholds hne (required_eq_ok_iff.mp hcapacity)
  | window =>
    obtain ⟨span, hspan, h⟩ := exists_of_bind_eq_ok h
    obtain ⟨threshold, hthreshold, ⟨⟩⟩ := exists_of_bind_eq_ok h
    obtain ⟨hholds, hne⟩ := positive_eq_ok_iff.mp hthreshold
    exact .window (span_eq_ok_iff.mp hspan) hholds hne
  | sketchWindow =>
    obtain ⟨⟨epsilon, delta⟩, hbounds, h⟩ := exists_of_bind_eq_ok h
    obtain ⟨windowSize, hwindowSize, h⟩ := exists_of_bind_eq_ok h
    obtain ⟨threshold, hthreshold, h⟩ := exists_of_bind_eq_ok h
    obtain ⟨bounded, hbounded, ⟨⟩⟩ := exists_of_bind_eq_ok h
    obtain ⟨hepsilon, hdelta, hfits⟩ := errorBounds_eq_ok_iff.mp hbounds
    obtain ⟨hholds, hne⟩ := positive_eq_ok_iff.mp hthreshold
    exact .sketchWindow hepsilon hdelta hfits (required_eq_ok_iff.mp hwindowSize) hholds hne
      (required_eq_ok_iff.mp hbounded)
  | wTinyLfu =>
    obtain ⟨capacity, hcapacity, h⟩ := exists_of_bind_eq_ok h
    obtain ⟨windowRatio, hwindowRatio, h⟩ := exists_of_bind_eq_ok h
    obtain ⟨protectedRatio, hprotectedRatio, h⟩ := exists_of_bind_eq_ok h
    obtain ⟨sampleSize, hsampleSize, h⟩ := exists_of_bind_eq_ok h
    obtain ⟨seed, hseed, ⟨⟩⟩ := exists_of_bind_eq_ok h
    exact .wTinyLfu (required_eq_ok_iff.mp hcapacity) (optional_eq_ok_iff.mp hwindowRatio)
      (optional_eq_ok_iff.mp hprotectedRatio) (optional_eq_ok_iff.mp hsampleSize)
      (optional_eq_ok_iff.mp hseed)
  | lirs =>
    obtain ⟨capacity, hcapacity, h⟩ := exists_of_bind_eq_ok h
    obtain ⟨lirRatio, hlirRatio, h⟩ := exists_of_bind_eq_ok h
    obtain ⟨maxNonResident, hmaxNonResident, ⟨⟩⟩ := exists_of_bind_eq_ok h
    exact .lirs (required_eq_ok_iff.mp hcapacity) (optional_eq_ok_iff.mp hlirRatio)
      (optional_eq_ok_iff.mp hmaxNonResident)
  | s3Fifo =>
    obtain ⟨capacity, hcapacity, h⟩ := exists_of_bind_eq_ok h
    obtain ⟨smallRatio, hsmallRatio, h⟩ := exists_of_bind_eq_ok h
    obtain ⟨ghostRatio, hghostRatio, ⟨⟩⟩ := exists_of_bind_eq_ok h
    exact .s3Fifo (required_eq_ok_iff.mp hcapacity) (optional_eq_ok_iff.mp hsmallRatio)
      (optional_eq_ok_iff.mp hghostRatio)
  | arc =>
    obtain ⟨capacity, hcapacity, ⟨⟩⟩ := exists_of_bind_eq_ok h
    exact .arc (required_eq_ok_iff.mp hcapacity)
  | hotRing =>
    cases h
    exact .hotRing
  | heapTopK => cases hpolicy

theorem spec_of_describes {policy : Policy} {spec : Spec}
    (h : Describes params.members policy spec) : params.spec policy = .ok spec := by
  cases h with
  | lru capacity_eq => exact bind_ok (required_eq_ok_iff.mpr capacity_eq) rfl
  | lfu capacity_eq minFrequency_eq =>
    refine bind_ok (required_eq_ok_iff.mpr capacity_eq) ?_
    exact bind_ok (optional_eq_ok_iff.mpr minFrequency_eq) rfl
  | lruK k_eq k_ne capacity_eq =>
    refine bind_ok (positive_eq_ok_iff.mpr ⟨k_eq, k_ne⟩) ?_
    exact bind_ok (required_eq_ok_iff.mpr capacity_eq) rfl
  | window span_eq threshold_eq threshold_ne =>
    refine bind_ok (span_eq_ok_iff.mpr span_eq) ?_
    exact bind_ok (positive_eq_ok_iff.mpr ⟨threshold_eq, threshold_ne⟩) rfl
  | sketchWindow epsilon_eq delta_eq fits windowSize_eq threshold_eq threshold_ne bounded_eq =>
    refine bind_ok (errorBounds_eq_ok_iff.mpr ⟨epsilon_eq, delta_eq, fits⟩) ?_
    refine bind_ok (required_eq_ok_iff.mpr windowSize_eq) ?_
    refine bind_ok (positive_eq_ok_iff.mpr ⟨threshold_eq, threshold_ne⟩) ?_
    exact bind_ok (required_eq_ok_iff.mpr bounded_eq) rfl
  | wTinyLfu capacity_eq windowRatio_eq protectedRatio_eq sampleSize_eq seed_eq =>
    refine bind_ok (required_eq_ok_iff.mpr capacity_eq) ?_
    refine bind_ok (optional_eq_ok_iff.mpr windowRatio_eq) ?_
    refine bind_ok (optional_eq_ok_iff.mpr protectedRatio_eq) ?_
    refine bind_ok (optional_eq_ok_iff.mpr sampleSize_eq) ?_
    exact bind_ok (optional_eq_ok_iff.mpr seed_eq) rfl
  | lirs capacity_eq lirRatio_eq maxNonResident_eq =>
    refine bind_ok (required_eq_ok_iff.mpr capacity_eq) ?_
    refine bind_ok (optional_eq_ok_iff.mpr lirRatio_eq) ?_
    exact bind_ok (optional_eq_ok_iff.mpr maxNonResident_eq) rfl
  | s3Fifo capacity_eq smallRatio_eq ghostRatio_eq =>
    refine bind_ok (required_eq_ok_iff.mpr capacity_eq) ?_
    refine bind_ok (optional_eq_ok_iff.mpr smallRatio_eq) ?_
    exact bind_ok (optional_eq_ok_iff.mpr ghostRatio_eq) rfl
  | arc capacity_eq => exact bind_ok (required_eq_ok_iff.mpr capacity_eq) rfl
  | hotRing => rfl

/-- The parameters are accepted as a specification exactly when the rule of the policy gives it. -/
theorem spec_eq_ok_iff {policy : Policy} {spec : Spec} (hpolicy : policy.isConfigurable) :
    params.spec policy = .ok spec ↔ Describes params.members policy spec :=
  ⟨describes_of_spec hpolicy, spec_of_describes⟩

end

/-! ## Refusals -/

section

variable {α : Type} {index : Nat} {fields : List String}

/-- A failure names the position and one of the parameters. -/
def Blames (index : Nat) (fields : List String) (outcome : Except ConfigError α) : Prop :=
  ∀ error, outcome = .error error → ∃ field ∈ fields, ∃ reason, error = .param index field reason

theorem Blames.ok (a : α) : Blames index fields (.ok a) := nofun

theorem Blames.bind {β : Type} {outcome : Except ConfigError α} {next : α → Except ConfigError β}
    (h : Blames index fields outcome) (hnext : ∀ a, Blames index fields (next a)) :
    Blames index fields (outcome >>= next) := by
  cases outcome with
  | ok a => exact hnext a
  | error error =>
    rintro _ ⟨⟩
    exact h error rfl

variable {params : Params} {field : String} (hfield : field ∈ fields)

include hfield

theorem blames_refuse (problem : ParamProblem) :
    Blames params.index fields (params.refuse field problem : Except ConfigError α) := by
  rintro _ ⟨⟩
  exact ⟨field, hfield, problem.message, rfl⟩

theorem blames_optional (what : String) (read : JsonValue → Option α) :
    Blames params.index fields (params.optional what read field) := by
  unfold optional
  split
  · exact .ok _
  · split
    · exact .ok _
    · exact blames_refuse hfield _

theorem blames_required (what : String) (read : JsonValue → Option α) :
    Blames params.index fields (params.required what read field) := by
  refine (blames_optional hfield what read).bind fun given ↦ ?_
  cases given with
  | some a => exact .ok _
  | none => exact blames_refuse hfield _

theorem blames_positive : Blames params.index fields (params.positive field) := by
  refine (blames_required hfield _ _).bind fun n ↦ ?_
  cases n with
  | zero => exact blames_refuse hfield _
  | succ n => exact .ok _

theorem blames_sized (outcome : Except BuildProblem Nat) :
    Blames params.index fields (params.sized field outcome) := by
  cases outcome with
  | ok n => exact .ok _
  | error problem => exact blames_refuse hfield _

end

/-- A refusal names the position of the entry and a parameter of the policy. -/
theorem blames_spec (params : Params) (policy : Policy) :
    Blames params.index policy.fields (params.spec policy) := by
  cases policy with
  | lru | arc => exact (blames_required (by decide) _ _).bind fun capacity ↦ .ok _
  | lfu =>
    refine (blames_required (by decide) _ _).bind fun capacity ↦ ?_
    exact (blames_optional (by decide) _ _).bind fun minFrequency ↦ .ok _
  | lruK =>
    refine (blames_positive (by decide)).bind fun k ↦ ?_
    exact (blames_required (by decide) _ _).bind fun capacity ↦ .ok _
  | window =>
    have hspan : Blames params.index Policy.window.fields params.span := by
      refine (blames_optional (by decide) _ _).bind fun given ↦ ?_
      cases given with
      | some ms => exact .ok _
      | none =>
        refine (blames_optional (by decide) _ _).bind fun other ↦ ?_
        cases other with
        | some ms => exact .ok _
        | none => exact blames_refuse (by decide) _
    refine hspan.bind fun span ↦ ?_
    exact (blames_positive (by decide)).bind fun threshold ↦ .ok _
  | sketchWindow =>
    have hbounds : Blames params.index Policy.sketchWindow.fields params.errorBounds := by
      refine (blames_required (by decide) _ _).bind fun epsilon ↦ ?_
      refine (blames_required (by decide) _ _).bind fun delta ↦ ?_
      refine (blames_sized (by decide) _).bind fun width ↦ ?_
      refine (blames_sized (by decide) _).bind fun depth ↦ ?_
      split_ifs with hbudget
      · exact blames_refuse (by decide) _
      · exact .ok _
    refine hbounds.bind fun bounds ↦ ?_
    refine (blames_required (by decide) _ _).bind fun windowSize ↦ ?_
    refine (blames_positive (by decide)).bind fun threshold ↦ ?_
    exact (blames_required (by decide) _ _).bind fun bounded ↦ .ok _
  | wTinyLfu =>
    refine (blames_required (by decide) _ _).bind fun capacity ↦ ?_
    refine (blames_optional (by decide) _ _).bind fun windowRatio ↦ ?_
    refine (blames_optional (by decide) _ _).bind fun protectedRatio ↦ ?_
    refine (blames_optional (by decide) _ _).bind fun sampleSize ↦ ?_
    exact (blames_optional (by decide) _ _).bind fun seed ↦ .ok _
  | lirs =>
    refine (blames_required (by decide) _ _).bind fun capacity ↦ ?_
    refine (blames_optional (by decide) _ _).bind fun lirRatio ↦ ?_
    exact (blames_optional (by decide) _ _).bind fun maxNonResident ↦ .ok _
  | s3Fifo =>
    refine (blames_required (by decide) _ _).bind fun capacity ↦ ?_
    refine (blames_optional (by decide) _ _).bind fun smallRatio ↦ ?_
    exact (blames_optional (by decide) _ _).bind fun ghostRatio ↦ .ok _
  | hotRing | heapTopK => exact .ok _

end Params

end KeyHeat

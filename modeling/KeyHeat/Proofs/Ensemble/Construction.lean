import KeyHeat.Proofs.Config.Specs
import KeyHeat.Proofs.Ensemble.Build

/-!
# Which configurations can be built

Loading and construction check the parameters of an entry one after the other and in part twice.
They agree on all that both look at, so an accepted configuration is refused only for a ratio out
of range or a sample size of zero. It gives one instance for each entry of a known type otherwise,
unless the sizes of one leave the range of words: then the construction is cut short. This takes a
capacity of two to the power 53 or more.
-/

namespace KeyHeat

namespace Config.Loads

variable {taken : List String} {index : Nat} {entries : List ConfigEntry}
  {separators : List NamedSpec} {ignored : List IgnoredEntry}

/-- The specifications are those of the entries of known types, and have passed their checks. -/
theorem accepted (h : Loads taken index entries separators ignored)
    (hfinite : ∀ entry ∈ entries, entry.params.Finite) :
    separators.map (·.spec.policy) = entries.filterMap ConfigEntry.policy? ∧
      ∀ named ∈ separators, named.spec.Accepted := by
  induction h with
  | nil => exact ⟨rfl, by simp⟩
  | @ignored _ _ entry _ _ _ unknown _ ih =>
    obtain ⟨-, hrest⟩ := List.forall_mem_cons.mp hfinite
    rw [List.filterMap_cons_none unknown]
    exact ih hrest
  | @kept _ index entry _ _ _ policy named known read _ _ ih =>
    obtain ⟨hentry, hrest⟩ := List.forall_mem_cons.mp hfinite
    obtain ⟨hpolicies, haccepted⟩ := ih hrest
    obtain ⟨params, hparams, hspec⟩ := exists_of_bind_eq_ok read
    obtain ⟨hpolicy, hnamed⟩ :=
      Params.accepted_of_spec (Params.finite_of_readParams hentry hparams) hspec
    rw [List.filterMap_cons_some known, List.map_cons, hpolicies, hpolicy]
    exact ⟨rfl, List.forall_mem_cons.mpr ⟨hnamed, haccepted⟩⟩

end Config.Loads

namespace Spec

/-- Nothing is against a specification. -/
def Buildable (spec : Spec) : Prop := ¬ spec.OutOfRange ∧ spec.overflow? = none

theorem halt?_eq_none_iff_buildable {spec : Spec} (h : spec.Accepted) :
    spec.halt? = none ↔ spec.Buildable := by
  rw [halt?_eq_none_iff, problem?_eq_none_iff h]
  rfl

theorem exists_refused_iff {spec : Spec} (h : spec.Accepted) :
    (∃ problem, spec.halt? = some (.refused problem)) ↔ spec.OutOfRange := by
  simp only [halt?_eq_refused_iff, ← Option.ne_none_iff_exists', ne_eq, problem?_eq_none_iff h,
    Classical.not_not]

theorem overflow_iff {spec : Spec} (h : spec.Accepted) {operation : Overflow} :
    spec.halt? = some (.overflow operation) ↔
      ¬ spec.OutOfRange ∧ spec.overflow? = some operation := by
  rw [halt?_eq_overflow_iff, problem?_eq_none_iff h]

/-- The policies that take neither ratios nor a sample size. -/
theorem buildable_of_policy {spec : Spec}
    (h : spec.policy ∈ [.lru, .lfu, .lruK, .window, .sketchWindow, .arc, .hotRing]) :
    spec.Buildable := by
  cases spec with
  | wTinyLfu | lirs | s3Fifo => simp [policy] at h
  | lru | lfu | lruK | window | sketchWindow | heapTopK | unimplemented => exact ⟨not_false, rfl⟩

end Spec

/-! ## The first that is not built -/

/-- The first specification that something is against is one with the given property. -/
def FirstStop (reason : Spec → Prop) (separators : List NamedSpec) : Prop :=
  ∃ first named second, separators = first ++ named :: second ∧
    (∀ earlier ∈ first, earlier.spec.Buildable) ∧ reason named.spec

/-- A list has one first element that lacks a property. -/
theorem eq_of_first {α : Type} {P : α → Prop} {first second before after : List α} {a b : α}
    (h : first ++ a :: second = before ++ b :: after) (hfirst : ∀ c ∈ first, P c) (ha : ¬ P a)
    (hbefore : ∀ c ∈ before, P c) (hb : ¬ P b) : a = b := by
  induction first generalizing before with
  | nil =>
    cases before with
    | nil => exact (List.cons.inj h).1
    | cons c before =>
      obtain ⟨rfl, -⟩ := List.cons.inj h
      exact absurd (hbefore a List.mem_cons_self) ha
  | cons c first ih =>
    cases before with
    | nil =>
      obtain ⟨rfl, -⟩ := List.cons.inj h
      exact absurd (hfirst c List.mem_cons_self) hb
    | cons d before =>
      obtain ⟨-, hrest⟩ := List.cons.inj h
      exact ih hrest (List.forall_mem_cons.mp hfirst).2 (List.forall_mem_cons.mp hbefore).2

namespace FirstStop

variable {reason : Spec → Prop} {first second separators : List NamedSpec} {named : NamedSpec}

theorem iff_of_split (hreason : ∀ spec, reason spec → ¬ spec.Buildable)
    (hfirst : ∀ earlier ∈ first, earlier.spec.Buildable) (hnamed : ¬ named.spec.Buildable) :
    FirstStop reason (first ++ named :: second) ↔ reason named.spec := by
  constructor
  · rintro ⟨before, other, after, hsplit, hbefore, hother⟩
    have hsame := eq_of_first (P := fun named : NamedSpec ↦ named.spec.Buildable) hsplit hfirst
      hnamed hbefore (hreason _ hother)
    rwa [hsame]
  · intro hnamed
    exact ⟨first, named, second, rfl, hfirst, hnamed⟩

theorem exists_not_buildable (hreason : ∀ spec, reason spec → ¬ spec.Buildable)
    (h : FirstStop reason separators) : ∃ named ∈ separators, ¬ named.spec.Buildable := by
  obtain ⟨first, named, second, rfl, -, hnamed⟩ := h
  exact ⟨named, by simp, hreason _ hnamed⟩

end FirstStop

namespace Ensemble

variable {κ : Type} [BEq κ] [Hashable κ]

section
variable {config : Config}

/-- Either the first specification that something is against decides, or there is an instance for
each. -/
theorem ofConfig_cases_of_accepted (h : ∀ named ∈ config.separators, named.spec.Accepted) :
    (∃ first named second halt, config.separators = first ++ named :: second ∧
      (∀ earlier ∈ first, earlier.spec.Buildable) ∧ ¬ named.spec.Buildable ∧
      named.spec.halt? = some halt ∧
      ofConfig (κ := κ) config = .error (stopAt first.length halt)) ∨
    (∀ named ∈ config.separators, named.spec.Buildable) ∧
      ∃ ensemble : Ensemble κ, ofConfig config = .ok ensemble ∧
        ensemble.instances.map (fun inst ↦ (inst.name, inst.separator.policy)) =
          config.separators.map fun named ↦ (named.name, named.spec.policy) := by
  obtain ⟨first, named, second, halt, hseparators, hfirst, hhalt, hfails⟩ | ⟨hnone, hbuilt⟩ :=
    ofConfig_cases (κ := κ) config
  · have hbuildable : ∀ earlier ∈ first, earlier.spec.Buildable := fun earlier hearlier ↦
      (Spec.halt?_eq_none_iff_buildable (h earlier (by simp [hseparators, hearlier]))).mp
        (hfirst earlier hearlier)
    have hnot : ¬ named.spec.Buildable := by
      rw [← Spec.halt?_eq_none_iff_buildable (h named (by simp [hseparators])), hhalt]
      exact Option.some_ne_none halt
    exact .inl ⟨first, named, second, halt, hseparators, hbuildable, hnot, hhalt, hfails⟩
  · exact .inr ⟨fun named hnamed ↦
      (Spec.halt?_eq_none_iff_buildable (h named hnamed)).mp (hnone named hnamed), hbuilt⟩

theorem refused_iff (h : ∀ named ∈ config.separators, named.spec.Accepted) :
    (∃ error, ofConfig (κ := κ) config = .error (.refused error)) ↔
      FirstStop Spec.OutOfRange config.separators := by
  have hreason (spec : Spec) (hrange : spec.OutOfRange) : ¬ spec.Buildable :=
    fun hbuildable ↦ hbuildable.1 hrange
  obtain ⟨first, named, second, halt, hseparators, hfirst, hnamed, hhalt, hfails⟩ |
    ⟨hall, ensemble, hbuilt, -⟩ := ofConfig_cases_of_accepted (κ := κ) h
  · rw [hfails, hseparators, FirstStop.iff_of_split hreason hfirst hnamed,
      ← Spec.exists_refused_iff (h named (by simp [hseparators])), hhalt]
    cases halt <;> simp [stopAt, Halt.map]
  · refine iff_of_false ?_ fun hstop ↦ ?_
    · rintro ⟨error, herror⟩
      cases hbuilt.symm.trans herror
    · obtain ⟨named, hnamed, hnot⟩ := hstop.exists_not_buildable hreason
      exact hnot (hall named hnamed)

theorem overflow_iff (h : ∀ named ∈ config.separators, named.spec.Accepted)
    (operation : Overflow) :
    ofConfig (κ := κ) config = .error (.overflow operation) ↔
      FirstStop (fun spec ↦ ¬ spec.OutOfRange ∧ spec.overflow? = some operation)
        config.separators := by
  have hreason (spec : Spec) (hoverflow : ¬ spec.OutOfRange ∧ spec.overflow? = some operation) :
      ¬ spec.Buildable := by
    rintro ⟨-, hnone⟩
    cases hnone.symm.trans hoverflow.2
  obtain ⟨first, named, second, halt, hseparators, hfirst, hnamed, hhalt, hfails⟩ |
    ⟨hall, ensemble, hbuilt, -⟩ := ofConfig_cases_of_accepted (κ := κ) h
  · rw [hfails, hseparators, FirstStop.iff_of_split hreason hfirst hnamed,
      ← Spec.overflow_iff (h named (by simp [hseparators])), hhalt]
    cases halt <;> simp [stopAt, Halt.map]
  · refine iff_of_false ?_ fun hstop ↦ ?_
    · intro herror
      cases hbuilt.symm.trans herror
    · obtain ⟨named, hnamed, hnot⟩ := hstop.exists_not_buildable hreason
      exact hnot (hall named hnamed)

theorem error_iff (h : ∀ named ∈ config.separators, named.spec.Accepted) :
    (∃ halt, ofConfig (κ := κ) config = .error halt) ↔
      ∃ named ∈ config.separators, ¬ named.spec.Buildable := by
  obtain ⟨first, named, second, halt, hseparators, -, hnamed, -, hfails⟩ |
    ⟨hall, ensemble, hbuilt, -⟩ := ofConfig_cases_of_accepted (κ := κ) h
  · exact iff_of_true ⟨_, hfails⟩ ⟨named, by simp [hseparators], hnamed⟩
  · refine iff_of_false ?_ ?_
    · rintro ⟨halt, hfails⟩
      cases hbuilt.symm.trans hfails
    · rintro ⟨named, hnamed, hnot⟩
      exact hnot (hall named hnamed)

end

/-- How the construction of a configuration from a document ends. It is refused or cut short for
the first specification that something is against. If there is none, there is one instance for each
entry of a known type, in order, with the name and the policy of the entry. Below two to the power
53 the ratios and the sample sizes alone decide. -/
structure Constructs (κ : Type) [BEq κ] [Hashable κ] (document : ConfigDocument) (config : Config) :
    Prop where
  policies_eq : config.separators.map (·.spec.policy) = document.entries.filterMap (·.policy?)
  refused_iff : (∃ error, ofConfig (κ := κ) config = .error (.refused error)) ↔
    FirstStop Spec.OutOfRange config.separators
  overflow_iff : ∀ operation, ofConfig (κ := κ) config = .error (.overflow operation) ↔
    FirstStop (fun spec ↦ ¬ spec.OutOfRange ∧ spec.overflow? = some operation) config.separators
  error_iff : (∃ halt, ofConfig (κ := κ) config = .error halt) ↔
    ∃ named ∈ config.separators, ¬ named.spec.Buildable
  error_iff_of_small : (∀ named ∈ config.separators, ∀ capacity,
      named.spec.capacity? = some capacity → capacity < 2 ^ 53) →
    ((∃ halt, ofConfig (κ := κ) config = .error halt) ↔
      ∃ named ∈ config.separators, named.spec.OutOfRange)
  build_eq_ok : ∀ named ∈ config.separators,
    named.spec.policy ∈ [.lru, .lfu, .lruK, .window, .sketchWindow, .arc, .hotRing] →
      ∃ separator, Separator.build (κ := κ) named.spec = .ok separator
  instances_eq : ∀ ensemble, ofConfig (κ := κ) config = .ok ensemble →
    ensemble.instances.map (fun inst ↦ (inst.name, inst.separator.policy)) =
      config.separators.map fun named ↦ (named.name, named.spec.policy)

theorem constructs_of_ofDocument {document : ConfigDocument} {config : Config}
    (h : Config.ofDocument document = .ok config)
    (hfinite : ∀ entry ∈ document.entries, entry.params.Finite) :
    Constructs κ document config := by
  obtain ⟨hpolicies, haccepted⟩ := (Config.loads_of_ofDocument h).accepted hfinite
  have herror := error_iff (κ := κ) haccepted
  refine ⟨hpolicies, refused_iff haccepted, overflow_iff haccepted, herror, ?_, ?_, ?_⟩
  · intro hsmall
    rw [herror]
    refine exists_congr fun named ↦ and_congr_right fun hnamed ↦ ?_
    rw [Spec.Buildable, not_and_or, Classical.not_not, or_iff_left_iff_imp]
    intro hoverflow
    by_contra hrange
    exact hoverflow (Spec.overflow?_eq_none hrange (hsmall named hnamed))
  · intro named hnamed hpolicy
    have hnone := (Spec.halt?_eq_none_iff_buildable (haccepted named hnamed)).mpr
      (Spec.buildable_of_policy hpolicy)
    obtain ⟨halt, hhalt, -⟩ | ⟨-, separator, hbuild, -⟩ := Separator.build_cases (κ := κ) named.spec
    · cases hnone.symm.trans hhalt
    · exact ⟨separator, hbuild⟩
  · intro ensemble hensemble
    obtain ⟨_, _, _, _, _, _, _, _, hfails⟩ | ⟨-, built, hbuilt, hinstances⟩ :=
      ofConfig_cases_of_accepted (κ := κ) haccepted
    · cases hensemble.symm.trans hfails
    · cases hensemble.symm.trans hbuilt
      exact hinstances

/-- How the construction of a configuration from an accepted text ends. -/
theorem build_of_ofText {text : String} {config : Config} (h : Config.ofText text = .ok config) :
    ∃ document, ConfigDocument.ofText text = .ok document ∧ Constructs κ document config := by
  obtain ⟨document, hdocument, hconfig⟩ := Config.exists_ofDocument h
  exact ⟨document, hdocument,
    constructs_of_ofDocument hconfig (ConfigDocument.finite_of_ofText hdocument)⟩

/-- A ratio that is left to its default, and one that is out of range. -/
def ratioText : String :=
  "\x7b\"operationcount\": 1000, \"hot_key_portion\": 0.1, \"heat_separators\": [" ++
    "\x7b\"type\": \"s3_fifo\", \"params\": \x7b\"capacity\": 8\x7d\x7d, " ++
    "\x7b\"type\": \"lirs\", \"params\": \x7b\"capacity\": 8, \"lir_ratio\": 1.5\x7d\x7d]\x7d"

theorem build_of_ofText_ratio : ∃ config document,
    Config.ofText ratioText = .ok config ∧ ConfigDocument.ofText ratioText = .ok document ∧
      config.separators.map (·.spec.policy) = document.entries.filterMap (·.policy?) ∧
      (∃ error, ofConfig (κ := UInt64) config = .error (.refused error)) ∧
      FirstStop Spec.OutOfRange config.separators := by
  have hloaded : ((Config.ofText ratioText).toOption.map fun config ↦
      match ofConfig (κ := UInt64) config with
      | .ok _ => false
      | .error (.overflow _) => false
      | .error (.refused _) => true) = some true := by
    rw [Config.ofText_eq]
    decide +kernel
  obtain ⟨config, hconfig, hfails⟩ := Option.map_eq_some_iff.mp hloaded
  have hconfig : Config.ofText ratioText = .ok config := eq_ok_of_toOption hconfig
  obtain ⟨document, hdocument, hconstructs⟩ := build_of_ofText (κ := UInt64) hconfig
  match hbuild : ofConfig (κ := UInt64) config with
  | .ok ensemble => simp [hbuild] at hfails
  | .error (.overflow operation) => simp [hbuild] at hfails
  | .error (.refused error) =>
    exact ⟨config, document, hconfig, hdocument, hconstructs.policies_eq, ⟨error, hbuild⟩,
      hconstructs.refused_iff.mp ⟨error, hbuild⟩⟩

/-- All of a capacity that is rounded up to the next double. -/
def roundedText : String :=
  "\x7b\"operationcount\": 1000, \"hot_key_portion\": 0.1, \"heat_separators\": [" ++
    "\x7b\"type\": \"s3_fifo\", \"params\": \x7b\"capacity\": 9007199254740995, " ++
    "\"small_ratio\": 1.0\x7d\x7d]\x7d"

/-- No ratio is out of range, and the small queue would take one key more than there is room for. -/
theorem not_built_of_rounded : ∃ config,
    Config.ofText roundedText = .ok config ∧
      ofConfig (κ := UInt64) config = .error (.overflow .subtraction) ∧
      ¬ ∃ named ∈ config.separators, named.spec.OutOfRange := by
  have hloaded : ((Config.ofText roundedText).toOption.map fun config ↦
      (match ofConfig (κ := UInt64) config with
        | .ok _ => none
        | .error (.refused _) => none
        | .error (.overflow operation) => some operation,
      config.separators.all (·.spec.problem?.isNone))) = some (some .subtraction, true) := by
    rw [Config.ofText_eq]
    decide +kernel
  obtain ⟨config, hconfig, hloaded⟩ := Option.map_eq_some_iff.mp hloaded
  obtain ⟨hfails, hnone⟩ := Prod.mk.inj hloaded
  have hconfig : Config.ofText roundedText = .ok config := eq_ok_of_toOption hconfig
  obtain ⟨document, hdocument, hofDocument⟩ := Config.exists_ofDocument hconfig
  obtain ⟨-, haccepted⟩ := (Config.loads_of_ofDocument hofDocument).accepted
    (ConfigDocument.finite_of_ofText hdocument)
  refine ⟨config, hconfig, ?_, ?_⟩
  · match hbuild : ofConfig (κ := UInt64) config with
    | .ok ensemble => simp [hbuild] at hfails
    | .error (.refused error) => simp [hbuild] at hfails
    | .error (.overflow operation) =>
      rw [hbuild, Option.some.injEq] at hfails
      rw [hfails]
  · rintro ⟨named, hnamed, hrange⟩
    have hproblem := Option.isNone_iff_eq_none.mp (List.all_eq_true.mp hnone named hnamed)
    exact (Spec.problem?_eq_none_iff (haccepted named hnamed)).mp hproblem hrange

end Ensemble

end KeyHeat

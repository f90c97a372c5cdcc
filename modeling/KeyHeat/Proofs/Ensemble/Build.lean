import KeyHeat.Ensemble.Basic
import KeyHeat.Proofs.Config.Entries
import KeyHeat.Proofs.Separator.Build

/-!
# Building ensembles

The instances are built in order, and the first specification that cannot be built decides the
error, or cuts the construction short. The text of the error names the position of that
specification among the specifications. This is the position of the entry only as long as no entry
before it has been ignored.
-/

namespace KeyHeat

/-! ## Positions in the texts of errors -/

/-- A position and what follows it can be told from another position. -/
theorem eq_of_digits_prefix {i j : Nat} {rest : List Char}
    (h : Nat.toDigits 10 i ++ [']'] <+: Nat.toDigits 10 j ++ ']' :: rest) : i = j := by
  obtain ⟨tail, htail⟩ := h
  have hdigits (n : Nat) : ∀ c ∈ Nat.toDigits 10 n, c.isDigit = true := fun c hc ↦
    Nat.isDigit_of_mem_toDigits (by decide) (by decide) hc
  have htake := congrArg (List.takeWhile Char.isDigit) htail
  rw [List.append_assoc, List.takeWhile_append_of_pos (hdigits i),
    List.takeWhile_append_of_pos (hdigits j)] at htake
  have hsame : Nat.toDigits 10 i = Nat.toDigits 10 j := by simpa using htake
  exact toDigits_inj hsame

theorem startsWith_position_iff {i j : Nat} {text : String} :
    s!"heat_separators[{j}]: {text}".startsWith s!"heat_separators[{i}]" ↔ i = j := by
  have hlong : s!"heat_separators[{j}]: {text}".toList =
      "heat_separators[".toList ++ (Nat.toDigits 10 j ++ ']' :: (": ".toList ++ text.toList)) := by
    rw [String.toList_append, String.toList_append, String.toList_append,
      Nat.toString_eq_ofList_toDigits, String.toList_ofList, List.append_assoc, List.append_assoc]
    rfl
  have hshort : s!"heat_separators[{i}]".toList =
      "heat_separators[".toList ++ (Nat.toDigits 10 i ++ [']']) := by
    rw [String.toList_append, String.toList_append, Nat.toString_eq_ofList_toDigits,
      String.toList_ofList, List.append_assoc]
    rfl
  rw [String.startsWith_string_iff, hlong, hshort, List.prefix_append_right_inj]
  constructor
  · exact eq_of_digits_prefix
  · rintro rfl
    exact ⟨": ".toList ++ text.toList, by simp⟩

/-- The error of a specification that cannot be built names the position it is given. -/
theorem ConfigError.message_inSeparator {spec : Spec} {problem : BuildProblem}
    (h : spec.problem? = some problem) (index : Nat) :
    ((ConfigError.build problem).inSeparator index).message =
      s!"heat_separators[{index}]: {problem.message}" := by
  have hplain : ¬ (ConfigError.build problem).message.startsWith "heat_separators[" :=
    Spec.not_startsWith_of_problem? h
  rw [ConfigError.inSeparator, if_neg hplain]
  rfl

/-! ## The instances -/

namespace Ensemble

variable {κ : Type} [BEq κ] [Hashable κ]

/-- What becomes of the construction when the specification at a position is not built. -/
def stopAt (index : Nat) (halt : Halt BuildProblem) : Halt ConfigError :=
  halt.map fun problem ↦ (ConfigError.build problem).inSeparator index

/-- Either some specification is the first that is not built, or there is an instance for each. -/
theorem buildFrom_cases (index : Nat) (separators : List NamedSpec) :
    (∃ first named second halt, separators = first ++ named :: second ∧
      (∀ earlier ∈ first, earlier.spec.halt? = none) ∧
      named.spec.halt? = some halt ∧
      buildFrom (κ := κ) index separators = .error (stopAt (index + first.length) halt)) ∨
    (∀ named ∈ separators, named.spec.halt? = none) ∧
      ∃ instances : List (Instance κ), buildFrom index separators = .ok instances ∧
        instances.map (fun inst ↦ (inst.name, inst.separator.policy)) =
          separators.map fun named ↦ (named.name, named.spec.policy) := by
  induction separators generalizing index with
  | nil => exact .inr ⟨by simp, [], rfl, rfl⟩
  | cons named rest ih =>
    obtain ⟨halt, hhalt, hbuild⟩ | ⟨hnone, separator, hbuild, hpolicy⟩ :=
      Separator.build_cases (κ := κ) named.spec
    · refine .inl ⟨[], named, rest, halt, rfl, by simp, hhalt, ?_⟩
      simp only [buildFrom, hbuild, stopAt, List.length_nil, Nat.add_zero]
    · obtain ⟨first, other, second, halt, rfl, hfirst, hhalt, hrest⟩ |
        ⟨hall, instances, hrest, hinstances⟩ := ih (index + 1)
      · refine .inl ⟨named :: first, other, second, halt, rfl, ?_, hhalt, ?_⟩
        · simpa [hnone] using hfirst
        · simp only [buildFrom, hbuild, hrest, Except.map, List.length_cons, Nat.add_assoc,
            Nat.add_comm 1]
      · refine .inr ⟨by simpa [hnone] using hall,
          .ofSeparator named.name separator :: instances, ?_, ?_⟩
        · simp only [buildFrom, hbuild, hrest, Except.map]
        · rw [List.map_cons, List.map_cons, hinstances]
          simp [Instance.ofSeparator, hpolicy]

theorem ofConfig_cases (config : Config) :
    (∃ first named second halt, config.separators = first ++ named :: second ∧
      (∀ earlier ∈ first, earlier.spec.halt? = none) ∧
      named.spec.halt? = some halt ∧
      ofConfig (κ := κ) config = .error (stopAt first.length halt)) ∨
    (∀ named ∈ config.separators, named.spec.halt? = none) ∧
      ∃ ensemble : Ensemble κ, ofConfig config = .ok ensemble ∧
        ensemble.instances.map (fun inst ↦ (inst.name, inst.separator.policy)) =
          config.separators.map fun named ↦ (named.name, named.spec.policy) := by
  obtain ⟨first, named, second, halt, hseparators, hfirst, hhalt, hbuild⟩ |
    ⟨hall, instances, hbuild, hinstances⟩ := buildFrom_cases (κ := κ) 0 config.separators
  · refine .inl ⟨first, named, second, halt, hseparators, hfirst, hhalt, ?_⟩
    rw [ofConfig, hbuild, Nat.zero_add]
    rfl
  · refine .inr ⟨hall, ⟨instances⟩, ?_, hinstances⟩
    rw [ofConfig, hbuild]
    rfl

end Ensemble

/-! ## Errors of accepted texts -/

/-- An entry at a position asks for a separator that is refused. -/
def ConfigEntry.Refused (κ : Type) [BEq κ] [Hashable κ] (entry : ConfigEntry) (index : Nat)
    (problem : BuildProblem) : Prop :=
  ∃ policy spec, entry.policy? = some policy ∧ entry.readSpec index policy = .ok spec ∧
    Separator.build (κ := κ) spec = .error (.refused problem)

/-- The entry after `before` is the first one that is refused. -/
def Config.FirstRefused (κ : Type) [BEq κ] [Hashable κ] (entries before : List ConfigEntry)
    (problem : BuildProblem) : Prop :=
  ∃ entry after, entries = before ++ entry :: after ∧ entry.Refused κ before.length problem ∧
    ∀ first other rest earlier, before = first ++ other :: rest →
      ¬ other.Refused κ first.length earlier

/-- The entry that is refused is of a known type. -/
theorem Config.FirstRefused.exists_policy {κ : Type} [BEq κ] [Hashable κ]
    {entries before : List ConfigEntry} {problem : BuildProblem}
    (h : FirstRefused κ entries before problem) :
    ∃ policy, (entries.map (·.policy?))[before.length]? = some (some policy) := by
  obtain ⟨entry, after, rfl, ⟨policy, -, hpolicy, -, -⟩, -⟩ := h
  exact ⟨policy, by simp [hpolicy]⟩

namespace Config.Loads

variable {κ : Type} [BEq κ] [Hashable κ] {entries : List ConfigEntry} {ignored : List IgnoredEntry}

/-- No entry is refused when no specification has a problem. -/
theorem not_refused {separators : List NamedSpec} (h : Loads [] 0 entries separators ignored)
    (hnone : ∀ named ∈ separators, named.spec.problem? = none) {before after : List ConfigEntry}
    {entry : ConfigEntry} (hentries : entries = before ++ entry :: after) (problem : BuildProblem) :
    ¬ entry.Refused κ before.length problem := by
  rintro ⟨policy, spec, hpolicy, hread, hbuild⟩
  subst hentries
  obtain ⟨first, named, second, -, rfl, hnamed, -, -⟩ := h.exists_named hpolicy
  rw [Nat.zero_add, hread, Except.ok.injEq] at hnamed
  have hproblem : spec.problem? = some problem := Separator.build_eq_refused_iff.mp hbuild
  rw [hnamed, hnone named (by simp)] at hproblem
  cases hproblem

/-- The first specification with a problem belongs to the first entry that is refused, which comes
after as many entries of known types as there are specifications before. -/
theorem exists_firstRefused {first second : List NamedSpec} {named : NamedSpec}
    {problem : BuildProblem} (h : Loads [] 0 entries (first ++ named :: second) ignored)
    (hfirst : ∀ earlier ∈ first, earlier.spec.problem? = none)
    (hproblem : named.spec.problem? = some problem) :
    ∃ before, FirstRefused κ entries before problem ∧
      first.length = before.countP ConfigEntry.isKnown := by
  obtain ⟨before, entry, after, policy, skipped, rfl, hpolicy, hread, -, hbefore⟩ := h.exists_entry
  rw [Nat.zero_add] at hread
  have hbuild : Separator.build (κ := κ) named.spec = .error (.refused problem) :=
    Separator.build_eq_refused_iff.mpr hproblem
  exact ⟨before, ⟨entry, after, rfl, ⟨policy, named.spec, hpolicy, hread, hbuild⟩,
    fun _ _ _ earlier hsplit ↦ hbefore.not_refused hfirst hsplit earlier⟩, hbefore.length_eq⟩

end Config.Loads

namespace Ensemble

variable {κ : Type} [BEq κ] [Hashable κ]

/-- The error of an accepted document is about its first entry that is refused. The position that
it names leaves out the ignored entries, so it is that of the entry exactly when there are none
before. -/
theorem error_of_ofDocument {document : ConfigDocument} {config : Config} {error : ConfigError}
    (h : Config.ofDocument document = .ok config)
    (herror : ofConfig (κ := κ) config = .error (.refused error)) :
    ∃ before problem, Config.FirstRefused κ document.entries before problem ∧
      error.message = s!"heat_separators[{before.countP (·.isKnown)}]: {problem.message}" ∧
      (error.message.startsWith s!"heat_separators[{before.length}]" ↔
        ∀ earlier ∈ before, earlier.isKnown) := by
  have hloads := Config.loads_of_ofDocument h
  obtain ⟨first, named, second, halt, hseparators, hfirst, hhalt, hfails⟩ |
    ⟨-, ensemble, hbuilds, -⟩ := ofConfig_cases (κ := κ) config
  · cases halt with
    | overflow operation => cases herror.symm.trans hfails
    | refused problem =>
      have hproblem : named.spec.problem? = some problem := Spec.halt?_eq_refused_iff.mp hhalt
      have hnone : ∀ earlier ∈ first, earlier.spec.problem? = none := fun earlier hearlier ↦
        (Spec.halt?_eq_none_iff.mp (hfirst earlier hearlier)).1
      rw [hseparators] at hloads
      obtain ⟨before, hrefused, hlength⟩ := hloads.exists_firstRefused (κ := κ) hnone hproblem
      have hmessage : error.message =
          s!"heat_separators[{before.countP (·.isKnown)}]: {problem.message}" := by
        cases herror.symm.trans hfails
        rw [ConfigError.message_inSeparator hproblem, hlength]
      refine ⟨before, problem, hrefused, hmessage, ?_⟩
      rw [hmessage, startsWith_position_iff, eq_comm, List.countP_eq_length]
  · cases herror.symm.trans hbuilds

/-- The error of an accepted text, by the entries of its document. -/
theorem message_of_error {text : String} {config : Config} {error : ConfigError}
    (h : Config.ofText text = .ok config)
    (herror : ofConfig (κ := κ) config = .error (.refused error)) :
    ∃ document before problem, ConfigDocument.ofText text = .ok document ∧
      Config.FirstRefused κ document.entries before problem ∧
      error.message = s!"heat_separators[{before.countP (·.isKnown)}]: {problem.message}" ∧
      (error.message.startsWith s!"heat_separators[{before.length}]" ↔
        ∀ earlier ∈ before, earlier.isKnown) := by
  obtain ⟨document, hdocument, hconfig⟩ := Config.exists_ofDocument h
  obtain ⟨before, problem, hconclusion⟩ := error_of_ofDocument hconfig herror
  exact ⟨document, before, problem, hdocument, hconclusion⟩

/-- An entry of the given type before one with a sample size of zero. -/
def refusedText (type : String) : String :=
  "\x7b\"operationcount\": 1000, \"hot_key_portion\": 0.1, \"heat_separators\": [" ++
    "\x7b\"type\": \"" ++ type ++ "\", \"params\": \x7b\"capacity\": 8\x7d\x7d, " ++
    "\x7b\"type\": \"w_tinylfu\", \"params\": \x7b\"capacity\": 8, \"sample_size\": 0\x7d\x7d]\x7d"

theorem message_of_error_lru : ∃ config error document before problem,
    Config.ofText (refusedText "lru") = .ok config ∧
      ofConfig (κ := UInt64) config = .error (.refused error) ∧
      error.message = "heat_separators[1]: sample_size must be at least 1" ∧
      ConfigDocument.ofText (refusedText "lru") = .ok document ∧
      Config.FirstRefused UInt64 document.entries before problem ∧
      error.message = s!"heat_separators[{before.countP (·.isKnown)}]: {problem.message}" ∧
      (error.message.startsWith s!"heat_separators[{before.length}]" ↔
        ∀ earlier ∈ before, earlier.isKnown) := by
  have hloaded : ((Config.ofText (refusedText "lru")).toOption.map fun config ↦
      match ofConfig (κ := UInt64) config with
      | .ok _ => none
      | .error (.overflow _) => none
      | .error (.refused error) => some error.message) =
      some (some "heat_separators[1]: sample_size must be at least 1") := by
    rw [Config.ofText_eq]
    decide +kernel
  obtain ⟨config, hconfig, herror⟩ := Option.map_eq_some_iff.mp hloaded
  have hconfig : Config.ofText (refusedText "lru") = .ok config := eq_ok_of_toOption hconfig
  match hbuild : ofConfig (κ := UInt64) config with
  | .ok ensemble => simp [hbuild] at herror
  | .error (.overflow operation) => simp [hbuild] at herror
  | .error (.refused error) =>
    rw [hbuild, Option.some.injEq] at herror
    obtain ⟨document, before, problem, hconclusion⟩ := message_of_error hconfig hbuild
    exact ⟨config, error, document, before, problem, hconfig, hbuild, herror, hconclusion⟩

/-- The only entry of a known type stands at position one, and the error names position zero. -/
theorem message_of_error_unknown : ∃ config error document before problem,
    Config.ofText (refusedText "unknown") = .ok config ∧
      ofConfig (κ := UInt64) config = .error (.refused error) ∧
      ConfigDocument.ofText (refusedText "unknown") = .ok document ∧
      Config.FirstRefused UInt64 document.entries before problem ∧ before.length = 1 ∧
      error.message = s!"heat_separators[0]: {problem.message}" ∧
      ¬ error.message.startsWith s!"heat_separators[{before.length}]" := by
  have hloaded : ((Config.ofText (refusedText "unknown")).toOption.map fun config ↦
      config.separators.map fun named ↦ named.spec.problem?.isSome) = some [true] := by
    rw [Config.ofText_eq]
    decide +kernel
  have hread : ((ConfigDocument.ofText (refusedText "unknown")).toOption.map fun document ↦
      document.entries.map (·.policy?)) = some [none, some .wTinyLfu] := by
    decide +kernel
  obtain ⟨config, hconfig, hseparators⟩ := Option.map_eq_some_iff.mp hloaded
  have hconfig : Config.ofText (refusedText "unknown") = .ok config := eq_ok_of_toOption hconfig
  obtain ⟨document, hdocument, hdocumentConfig⟩ := Config.exists_ofDocument hconfig
  have hloads := Config.loads_of_ofDocument hdocumentConfig
  rw [hdocument] at hread
  have hentries : document.entries.map (·.policy?) = [none, some .wTinyLfu] := Option.some.inj hread
  obtain ⟨named, hconfigured, hsome⟩ := List.map_eq_singleton_iff.mp hseparators
  obtain ⟨problem, hproblem⟩ := Option.isSome_iff_exists.mp hsome
  have hloads : Config.Loads [] 0 document.entries ([] ++ named :: []) config.ignored := by
    rwa [hconfigured] at hloads
  obtain ⟨before, hrefused, -⟩ := hloads.exists_firstRefused (κ := UInt64) (by simp) hproblem
  obtain ⟨policy, hat⟩ := hrefused.exists_policy
  have hbefore : before.length = 1 := by
    rw [hentries] at hat
    match hlength : before.length with
    | 0 => simp [hlength] at hat
    | 1 => rfl
    | n + 2 => simp [hlength] at hat
  have hbuild : Separator.build (κ := UInt64) named.spec = .error (.refused problem) :=
    Separator.build_eq_refused_iff.mpr hproblem
  have hmessage : ((ConfigError.build problem).inSeparator 0).message =
      s!"heat_separators[0]: {problem.message}" := ConfigError.message_inSeparator hproblem 0
  refine ⟨config, _, document, before, problem, hconfig, ?_, hdocument, hrefused, hbefore,
    hmessage, ?_⟩
  · simp only [ofConfig, hconfigured, buildFrom, hbuild, Except.map, Halt.map]
  · rw [hmessage]
    intro hposition
    have hzero := startsWith_position_iff (i := before.length) (j := 0) |>.mp hposition
    omega

end Ensemble

end KeyHeat

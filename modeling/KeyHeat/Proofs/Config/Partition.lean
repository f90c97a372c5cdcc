import KeyHeat.Proofs.Config.Entries
import KeyHeat.Proofs.Config.Schema
import Mathlib.Data.List.Forall2

/-!
# Which entries are loaded

Loading splits the entries: those of a type that can be asked for become specifications, in order,
and the others are listed with their positions. It succeeds exactly when the portion is in range
and every entry of the first kind has parameters that describe a specification. If it fails for an
entry, it is the first one without such parameters, and nothing after it matters.
-/

namespace KeyHeat

/-- Either all elements of a list have a property, or one of them is the first without it. -/
theorem forall_or_exists_first {α : Type} (P : α → Prop) (list : List α) :
    (∀ a ∈ list, P a) ∨ ∃ before a after, list = before ++ a :: after ∧
      (∀ earlier ∈ before, P earlier) ∧ ¬ P a := by
  induction list with
  | nil => exact .inl (List.forall_mem_nil _)
  | cons a rest ih =>
    by_cases ha : P a
    · obtain hall | ⟨before, b, after, rfl, hbefore, hb⟩ := ih
      · exact .inl (List.forall_mem_cons.mpr ⟨ha, hall⟩)
      · exact .inr ⟨a :: before, b, after, rfl, List.forall_mem_cons.mpr ⟨ha, hbefore⟩, hb⟩
    · exact .inr ⟨[], a, rest, rfl, List.forall_mem_nil _, ha⟩

/-! ## Positions in the texts of errors -/

theorem startsWith_append (first second : String) : (first ++ second).startsWith first := by
  rw [String.startsWith_string_iff, String.toList_append]
  exact List.prefix_append _ _

theorem startsWith_params (index : Nat) (rest : String) :
    ("heat_separators[" ++ toString index ++ ("].params" ++ rest)).startsWith
      s!"heat_separators[{index}].params" := by
  rw [← String.append_assoc]
  exact startsWith_append _ _

theorem ConfigError.startsWith_param (index : Nat) (field reason : String) :
    (param index field reason).message.startsWith s!"heat_separators[{index}].params" := by
  have hdot : "].params." = "].params" ++ "." := by decide
  change ("heat_separators[" ++ toString index ++ "].params." ++ field ++ ": " ++
    reason).startsWith _
  rw [hdot]
  simpa only [String.append_assoc] using startsWith_params index ("." ++ field ++ ": " ++ reason)

theorem ConfigError.startsWith_paramsNotObject (index : Nat) (got : JsonValue) :
    (paramsNotObject index got).message.startsWith s!"heat_separators[{index}].params" := by
  have hcolon : "].params: expected an object, got " =
    "].params" ++ ": expected an object, got " := by decide
  change ("heat_separators[" ++ toString index ++ "].params: expected an object, got " ++
    got.text).startsWith _
  rw [hcolon]
  simpa only [String.append_assoc] using
    startsWith_params index (": expected an object, got " ++ got.text)

/-! ## One entry -/

namespace ConfigEntry

/-- The members of the parameters of an entry, which may be left out. -/
def members? (entry : ConfigEntry) : Option Members :=
  match entry.params with
  | .object members => some members
  | .null => some []
  | _ => none

/-- The type of the entry belongs to a policy for which its parameters describe the
specification. -/
def Describes (entry : ConfigEntry) (spec : Spec) : Prop :=
  ∃ policy members, policy.isConfigurable ∧ policy.tag = entry.type ∧
    entry.members? = some members ∧ members.Describes policy spec

/-- The entry is of an unknown type, or its parameters describe a specification. -/
def Fine (entry : ConfigEntry) : Prop := entry.type ∈ Policy.tags → ∃ spec, entry.Describes spec

variable {entry : ConfigEntry}

theorem isKnown_iff : entry.isKnown ↔ entry.type ∈ Policy.tags := by
  rw [isKnown, Option.isSome_iff_exists, Policy.mem_tags_iff]
  exact exists_congr fun policy ↦ Policy.ofTag?_eq_some_iff

theorem policy?_eq_none_iff : entry.policy? = none ↔ entry.type ∉ Policy.tags := by
  rw [← isKnown_iff, isKnown, Bool.not_eq_true, Option.isSome_eq_false_iff,
    Option.isNone_iff_eq_none]

variable {policy : Policy} {index : Nat}

theorem type_mem_of_policy? (h : entry.policy? = some policy) : entry.type ∈ Policy.tags :=
  Policy.mem_tags_iff.mpr ⟨policy, Policy.ofTag?_eq_some_iff.mp h⟩

theorem readParams_eq_ok_iff {params : Params} :
    entry.readParams index = .ok params ↔
      params.index = index ∧ entry.members? = some params.members := by
  obtain ⟨position, members⟩ := params
  unfold readParams members?
  cases entry.params <;> simp [eq_comm]

theorem readSpec_eq_ok_iff {spec : Spec} (hpolicy : entry.policy? = some policy) :
    entry.readSpec index policy = .ok spec ↔ entry.Describes spec := by
  obtain ⟨hconfigurable, htag⟩ := Policy.ofTag?_eq_some_iff.mp hpolicy
  constructor
  · intro h
    obtain ⟨params, hparams, hspec⟩ := exists_of_bind_eq_ok h
    obtain ⟨-, hmembers⟩ := readParams_eq_ok_iff.mp hparams
    exact ⟨policy, params.members, hconfigurable, htag, hmembers,
      (Params.spec_eq_ok_iff hconfigurable).mp hspec⟩
  · rintro ⟨other, members, -, hother, hmembers, hdescribes⟩
    cases Policy.tag_inj (hother.trans htag.symm)
    have hparams : entry.readParams index = .ok ⟨index, members⟩ :=
      readParams_eq_ok_iff.mpr ⟨rfl, hmembers⟩
    exact bind_ok hparams ((Params.spec_eq_ok_iff hconfigurable).mpr hdescribes)

/-- A refusal names the position. -/
theorem startsWith_of_readSpec {error : ConfigError}
    (h : entry.readSpec index policy = .error error) :
    error.message.startsWith s!"heat_separators[{index}].params" := by
  unfold readSpec readParams at h
  split at h
  · obtain ⟨field, -, reason, rfl⟩ := Params.blames_spec _ policy error h
    exact ConfigError.startsWith_param index field reason
  · obtain ⟨field, -, reason, rfl⟩ := Params.blames_spec _ policy error h
    exact ConfigError.startsWith_param index field reason
  · cases h
    exact ConfigError.startsWith_paramsNotObject index _

end ConfigEntry

/-- The portion is a share. -/
def ConfigDocument.InRange (document : ConfigDocument) : Prop :=
  0 ≤ document.hotKeyPortion ∧ document.hotKeyPortion ≤ 1

instance (document : ConfigDocument) : Decidable document.InRange :=
  inferInstanceAs (Decidable (_ ∧ _))

namespace Config

/-! ## A list of entries -/

section

variable {taken : List String} {index : Nat} {entries : List ConfigEntry}

/-- An entry that is fine leaves it to the rest whether loading fails. -/
theorem exists_loadAmong_cons {entry : ConfigEntry} (h : entry.Fine) :
    ∃ (given : List String) (extend : List NamedSpec × List IgnoredEntry → _), ∀ entries,
      loadAmong taken index (entry :: entries) =
        (loadAmong given (index + 1) entries).map extend := by
  cases hpolicy : entry.policy? with
  | none =>
    refine ⟨taken, fun loaded ↦ (loaded.1, ⟨index, entry.type⟩ :: loaded.2), fun entries ↦ ?_⟩
    rw [loadAmong, hpolicy]
    cases loadAmong taken (index + 1) entries <;> rfl
  | some policy =>
    obtain ⟨spec, hspec⟩ := h (ConfigEntry.type_mem_of_policy? hpolicy)
    have hread : entry.readSpec index policy = .ok spec :=
      (ConfigEntry.readSpec_eq_ok_iff hpolicy).mpr hspec
    generalize hname : nameAmong taken index (entry.baseName policy) = name
    refine ⟨taken ++ [name], fun loaded ↦ (⟨name, spec⟩ :: loaded.1, loaded.2), fun entries ↦ ?_⟩
    simp only [loadAmong, hpolicy, hread, hname, bind, Except.bind]
    cases loadAmong (taken ++ [name]) (index + 1) entries <;> rfl

theorem exists_loadAmong (taken : List String) (index : Nat)
    (h : ∀ entry ∈ entries, entry.Fine) : ∃ loaded, loadAmong taken index entries = .ok loaded := by
  induction entries generalizing taken index with
  | nil => exact ⟨_, rfl⟩
  | cons entry rest ih =>
    obtain ⟨hentry, hrest⟩ := List.forall_mem_cons.mp h
    obtain ⟨given, extend, hcons⟩ := exists_loadAmong_cons hentry
    obtain ⟨loaded, hloaded⟩ := ih given (index + 1) hrest
    exact ⟨extend loaded, by rw [hcons, hloaded, Except.map]⟩

theorem exists_error_of_not_fine (index : Nat) {entry : ConfigEntry} (h : ¬ entry.Fine) :
    ∃ policy error, entry.policy? = some policy ∧ entry.readSpec index policy = .error error := by
  cases hpolicy : entry.policy? with
  | none => exact absurd (fun hmem ↦ absurd hmem (ConfigEntry.policy?_eq_none_iff.mp hpolicy)) h
  | some policy =>
    cases hread : entry.readSpec index policy with
    | ok spec =>
      have hdescribes : entry.Describes spec := (ConfigEntry.readSpec_eq_ok_iff hpolicy).mp hread
      exact absurd (fun _ ↦ ⟨spec, hdescribes⟩) h
    | error error => exact ⟨policy, error, rfl, hread⟩

/-- After entries that are fine, one that is not decides the error. -/
theorem exists_error_loadAmong (taken : List String) (index : Nat) {before : List ConfigEntry}
    {entry : ConfigEntry} (hbefore : ∀ earlier ∈ before, earlier.Fine) (hentry : ¬ entry.Fine) :
    ∃ error : ConfigError,
      error.message.startsWith s!"heat_separators[{index + before.length}].params" ∧
        ∀ after, loadAmong taken index (before ++ entry :: after) = .error error := by
  induction before generalizing taken index with
  | nil =>
    obtain ⟨policy, error, hpolicy, hread⟩ := exists_error_of_not_fine index hentry
    refine ⟨error, ConfigEntry.startsWith_of_readSpec hread, fun after ↦ ?_⟩
    simp only [List.nil_append, loadAmong, hpolicy, hread, bind, Except.bind]
  | cons first before ih =>
    obtain ⟨hfirst, hbefore⟩ := List.forall_mem_cons.mp hbefore
    obtain ⟨given, extend, hcons⟩ := exists_loadAmong_cons hfirst
    obtain ⟨error, hmessage, herror⟩ := ih given (index + 1) hbefore
    refine ⟨error, add_length_cons index first before ▸ hmessage, fun after ↦ ?_⟩
    rw [List.cons_append, hcons, herror, Except.map]

end

namespace Loads

variable {taken : List String} {index : Nat} {entries : List ConfigEntry}
  {separators : List NamedSpec} {ignored : List IgnoredEntry}

theorem ignored_eq (h : Loads taken index entries separators ignored) :
    ignored = ((entries.zipIdx index).filter (·.1.type ∉ Policy.tags)).map fun (entry, position) ↦
      ⟨position, entry.type⟩ := by
  induction h with
  | nil => rfl
  | ignored unknown _ ih =>
    have hother := ConfigEntry.policy?_eq_none_iff.mp unknown
    rw [List.zipIdx_cons, List.filter_cons_of_pos (by simpa using hother), List.map_cons, ih]
  | kept known _ _ _ ih =>
    have htag := ConfigEntry.type_mem_of_policy? known
    rw [List.zipIdx_cons, List.filter_cons_of_neg (by simpa using htag), ih]

theorem forall₂_describes (h : Loads taken index entries separators ignored) :
    List.Forall₂ (fun entry named ↦ entry.Describes named.spec)
      (entries.filter (·.type ∈ Policy.tags)) separators := by
  induction h with
  | nil => exact .nil
  | ignored unknown _ ih =>
    have hother := ConfigEntry.policy?_eq_none_iff.mp unknown
    rwa [List.filter_cons_of_neg (by simpa using hother)]
  | kept known read _ _ ih =>
    have htag := ConfigEntry.type_mem_of_policy? known
    rw [List.filter_cons_of_pos (by simpa using htag)]
    exact .cons ((ConfigEntry.readSpec_eq_ok_iff known).mp read) ih

theorem length_add (h : Loads taken index entries separators ignored) :
    separators.length + ignored.length = entries.length := by
  induction h with
  | nil => rfl
  | ignored _ _ ih =>
    rw [List.length_cons, List.length_cons, ← ih, Nat.add_assoc]
  | kept _ _ _ _ ih =>
    rw [List.length_cons, List.length_cons, ← ih, Nat.add_right_comm]

end Loads

/-! ## Documents -/

/-- The configuration holds the entries of the document, each on its side and in order. -/
structure Splits (document : ConfigDocument) (config : Config) : Prop where
  operationCount_eq : config.operationCount = document.operationCount
  hotKeyPortion_eq : config.hotKeyPortion = document.hotKeyPortion
  separators_describe : List.Forall₂ (fun entry named ↦ entry.Describes named.spec)
    (document.entries.filter (·.type ∈ Policy.tags)) config.separators
  ignored_eq : config.ignored = (document.entries.zipIdx.filter (·.1.type ∉ Policy.tags)).map
    fun (entry, position) ↦ ⟨position, entry.type⟩
  length_add : config.separators.length + config.ignored.length = document.entries.length

/-- The error is that of the first entry that is not fine, whatever stands after it. -/
def BlamesFirst (document : ConfigDocument) (error : ConfigError) : Prop :=
  ∃ before entry after, document.entries = before ++ entry :: after ∧
    (∀ earlier ∈ before, earlier.Fine) ∧ ¬ entry.Fine ∧
    error.message.startsWith s!"heat_separators[{before.length}].params" ∧
    ∀ others, ofDocument { document with entries := before ++ entry :: others } = .error error

theorem BlamesFirst.exists_not_fine {document : ConfigDocument} {error : ConfigError}
    (h : BlamesFirst document error) : ∃ entry ∈ document.entries, ¬ entry.Fine := by
  obtain ⟨before, entry, after, hentries, -, hentry, -⟩ := h
  exact ⟨entry, by simp [hentries], hentry⟩

theorem splits_of_ofDocument {document : ConfigDocument} {config : Config}
    (h : ofDocument document = .ok config) : Splits document config := by
  have hloads := loads_of_ofDocument h
  rw [ofDocument_eq] at h
  split_ifs at h
  obtain ⟨⟨separators, ignored⟩, -, rfl⟩ := exists_of_map_eq_ok h
  exact ⟨rfl, rfl, hloads.forall₂_describes, hloads.ignored_eq, hloads.length_add⟩

/-- The portion is out of range, or an entry is to blame, or the document is accepted. -/
theorem ofDocument_cases (document : ConfigDocument) :
    ¬ document.InRange ∧
        ofDocument document = .error (.portionOutOfRange document.hotKeyPortion) ∨
      document.InRange ∧
        ((∃ error, ofDocument document = .error error ∧ BlamesFirst document error) ∨
          (∀ entry ∈ document.entries, entry.Fine) ∧
            ∃ config, ofDocument document = .ok config) := by
  have hwithin : Number.within 0 1 document.hotKeyPortion ↔ document.InRange := by
    rw [Number.within, Bool.and_eq_true, decide_eq_true_iff, decide_eq_true_iff]
    rfl
  by_cases hrange : document.InRange
  · refine .inr ⟨hrange, ?_⟩
    obtain hfine | ⟨before, entry, after, hentries, hbefore, hentry⟩ :=
      forall_or_exists_first ConfigEntry.Fine document.entries
    · obtain ⟨loaded, hloaded⟩ := exists_loadAmong [] 0 hfine
      exact .inr ⟨hfine, _, by rw [ofDocument_eq, if_pos (hwithin.mpr hrange), hloaded]; rfl⟩
    · obtain ⟨error, hmessage, hload⟩ := exists_error_loadAmong [] 0 hbefore hentry
      rw [Nat.zero_add] at hmessage
      have herror (others : List ConfigEntry) :
          ofDocument { document with entries := before ++ entry :: others } = .error error := by
        rw [ofDocument_eq, if_pos (hwithin.mpr hrange), hload]
        rfl
      refine .inl ⟨error, ?_, before, entry, after, hentries, hbefore, hentry, hmessage, herror⟩
      rw [← herror after, ← hentries]
  · refine .inl ⟨hrange, ?_⟩
    rw [ofDocument_eq, if_neg (hrange ∘ hwithin.mp)]

/-- A document is accepted exactly when its portion is in range and its entries of known types have
parameters that describe a specification. Then its entries are split. If the portion is to blame,
the error says so, and else it names the position of the first entry to blame. -/
theorem splits_or_blames (document : ConfigDocument) :
    (∀ text, ConfigDocument.ofText text = .ok document → ofText text = ofDocument document) ∧
    ((∃ config, ofDocument document = .ok config) ↔
      document.InRange ∧ ∀ entry ∈ document.entries, entry.Fine) ∧
    (∀ config, ofDocument document = .ok config → Splits document config) ∧
    ∀ error, ofDocument document = .error error →
      ¬ document.InRange ∧ error = .portionOutOfRange document.hotKeyPortion ∨
        document.InRange ∧ BlamesFirst document error := by
  refine ⟨fun text htext ↦ by rw [ofText, htext], ?_, fun config ↦ splits_of_ofDocument, ?_⟩
  · obtain ⟨hrange, hfails⟩ | ⟨hrange, ⟨error, hfails, hblames⟩ | ⟨hfine, hloads⟩⟩ :=
      ofDocument_cases document
    · exact iff_of_false (by simp [hfails]) fun h ↦ hrange h.1
    · obtain ⟨entry, hmem, hentry⟩ := hblames.exists_not_fine
      exact iff_of_false (by simp [hfails]) fun h ↦ hentry (h.2 entry hmem)
    · exact iff_of_true hloads ⟨hrange, hfine⟩
  · intro error herror
    obtain ⟨hrange, hfails⟩ | ⟨hrange, ⟨other, hfails, hblames⟩ | ⟨-, config, hloads⟩⟩ :=
      ofDocument_cases document
    · cases herror.symm.trans hfails
      exact .inl ⟨hrange, rfl⟩
    · cases herror.symm.trans hfails
      exact .inr ⟨hrange, hblames⟩
    · cases herror.symm.trans hloads

/-- An entry of an unknown type, a time window with the given threshold, and an entry that lacks a
parameter unless its type is unknown as well. -/
def mixedText (threshold last : String) : String :=
  "\x7b\"operationcount\": 1000, \"hot_key_portion\": 0.1, \"heat_separators\": [" ++
    "\x7b\"type\": \"clock\"\x7d, " ++
    "\x7b\"type\": \"window\", \"params\": \x7b\"window_size_ms\": null, " ++
      "\"window_size\": 60, \"threshold\": " ++ threshold ++ "\x7d\x7d, " ++
    "\x7b\"type\": \"" ++ last ++ "\"\x7d]\x7d"

/-- The second entry is to blame and not the third one, until both are corrected. -/
theorem splits_or_blames_mixed :
    (∃ document error, ConfigDocument.ofText (mixedText "0" "lru") = .ok document ∧
      ofText (mixedText "0" "lru") = .error error ∧ BlamesFirst document error ∧
      error.message = "heat_separators[1].params.threshold: must be at least 1") ∧
    ∃ document config, ConfigDocument.ofText (mixedText "5" "LRU") = .ok document ∧
      ofText (mixedText "5" "LRU") = .ok config ∧ Splits document config ∧
      config.ignored = [⟨0, "clock"⟩, ⟨2, "LRU"⟩] := by
  constructor
  · have hread : (ConfigDocument.ofText (mixedText "0" "lru")).toOption.map (fun document ↦
        (decide document.InRange,
          match ofDocument document with
          | .ok _ => none
          | .error error => some error.message)) =
        some (true, some "heat_separators[1].params.threshold: must be at least 1") := by
      simp only [ofDocument_eq]
      decide +kernel
    obtain ⟨document, hdocument, hfacts⟩ := Option.map_eq_some_iff.mp hread
    obtain ⟨hrange, hmessage⟩ := Prod.mk.inj hfacts
    have hdocument := eq_ok_of_toOption hdocument
    obtain ⟨hofText, -, -, hblames⟩ := splits_or_blames document
    cases herror : ofDocument document with
    | ok config => simp [herror] at hmessage
    | error error =>
      rw [herror] at hmessage
      obtain ⟨hout, -⟩ | ⟨-, hblames⟩ := hblames error herror
      · exact absurd (of_decide_eq_true hrange) hout
      · exact ⟨document, error, hdocument, (hofText _ hdocument).trans herror, hblames,
          Option.some.inj hmessage⟩
  · have hread : ((ConfigDocument.ofText (mixedText "5" "LRU")).toOption.map fun document ↦
        (ofDocument document).toOption.map (·.ignored)) =
        some (some [⟨0, "clock"⟩, ⟨2, "LRU"⟩]) := by
      simp only [ofDocument_eq]
      decide +kernel
    obtain ⟨document, hdocument, hloaded⟩ := Option.map_eq_some_iff.mp hread
    obtain ⟨config, hconfig, hignored⟩ := Option.map_eq_some_iff.mp hloaded
    have hdocument := eq_ok_of_toOption hdocument
    have hconfig := eq_ok_of_toOption hconfig
    obtain ⟨hofText, -, hsplits, -⟩ := splits_or_blames document
    exact ⟨document, config, hdocument, (hofText _ hdocument).trans hconfig,
      hsplits config hconfig, hignored⟩

end Config

end KeyHeat

import KeyHeat.Config.Load
import KeyHeat.Proofs.Number.Word

/-!
# The entries of a configuration

Loading goes through the entries in order, carries the names given out so far and the position,
and keeps or ignores one entry at a time. The names are kept in a list here, which decides the
same questions as the set and can be evaluated in proofs. What a successful load says about its
entries is a relation with one rule for each kind of entry.
-/

namespace KeyHeat

namespace ConfigEntry

/-- The policy that an entry asks for, if its type is known. -/
def policy? (entry : ConfigEntry) : Option Policy := Policy.ofTag? entry.type

def isKnown (entry : ConfigEntry) : Bool := entry.policy?.isSome

/-- The name that an entry asks for: the given one or else the tag of its policy. -/
def baseName (entry : ConfigEntry) (policy : Policy) : String := entry.name.getD policy.tag

/-- The specification of an entry at a position that asks for the given policy. -/
def readSpec (entry : ConfigEntry) (index : Nat) (policy : Policy) : Except ConfigError Spec := do
  (← entry.readParams index).spec policy

end ConfigEntry

/-- The name of an instance when the names in `taken` have been given out. -/
def nameAmong (taken : List String) (index : Nat) (base : String) : String :=
  if base ∈ taken then s!"{base}_{index}" else base

theorem instanceName_eq_nameAmong {given : Std.HashSet String} {taken : List String}
    (h : ∀ name, name ∈ given ↔ name ∈ taken) (index : Nat) (base : String) :
    instanceName given index base = nameAmong taken index base := by
  simp [instanceName, nameAmong, ← h]

theorem toDigits_inj {i j : Nat} (h : Nat.toDigits 10 i = Nat.toDigits 10 j) : i = j := by
  rw [← Nat.ofDigitChars_ten_toDigits (n := i), h, Nat.ofDigitChars_ten_toDigits]

theorem add_length_cons {α : Type} (index : Nat) (head : α) (rest : List α) :
    index + (head :: rest).length = index + 1 + rest.length := by
  rw [List.length_cons]
  omega

theorem eq_ok_of_toOption {ε α : Type} {outcome : Except ε α} {a : α}
    (h : outcome.toOption = some a) : outcome = .ok a := by
  cases outcome with
  | error error => cases h
  | ok b =>
    cases h
    rfl

namespace Config

/-! ## Loading with a list of names -/

/-- The specifications and the ignored entries of the entries from position `index` on, when the
names in `taken` have been given out, oldest first. -/
def loadAmong (taken : List String) (index : Nat) :
    List ConfigEntry → Except ConfigError (List NamedSpec × List IgnoredEntry)
  | [] => .ok ([], [])
  | entry :: rest =>
    match entry.policy? with
    | none => do
      let (separators, ignored) ← loadAmong taken (index + 1) rest
      pure (separators, ⟨index, entry.type⟩ :: ignored)
    | some policy => do
      let spec ← entry.readSpec index policy
      let name := nameAmong taken index (entry.baseName policy)
      let (separators, ignored) ← loadAmong (taken ++ [name]) (index + 1) rest
      pure (⟨name, spec⟩ :: separators, ignored)

theorem loadEntries_eq_loadAmong {given : Std.HashSet String} {taken : List String}
    (h : ∀ name, name ∈ given ↔ name ∈ taken) (index : Nat) (entries : List ConfigEntry) :
    loadEntries given index entries = loadAmong taken index entries := by
  induction entries generalizing given taken index with
  | nil => rfl
  | cons entry rest ih =>
    rw [loadEntries, loadAmong, ConfigEntry.policy?]
    cases Policy.ofTag? entry.type with
    | none => simp only [ih h]
    | some policy =>
      have hgiven (name : String) :
          ∀ other, other ∈ given.insert name ↔ other ∈ taken ++ [name] := by
        intro other
        simp only [Std.HashSet.mem_insert, beq_iff_eq, h, List.mem_append, List.mem_singleton]
        exact ⟨fun hor ↦ hor.symm.imp_right Eq.symm, fun hor ↦ (hor.imp_right Eq.symm).symm⟩
      simp only [instanceName_eq_nameAmong h, ih (hgiven _), ConfigEntry.readSpec,
        ConfigEntry.baseName, bind_assoc]

theorem ofDocument_eq (document : ConfigDocument) : ofDocument document =
    if Number.within 0 1 document.hotKeyPortion then
      (loadAmong [] 0 document.entries).map fun (separators, ignored) ↦
        ⟨document.operationCount, document.hotKeyPortion, separators, ignored⟩
    else .error (.portionOutOfRange document.hotKeyPortion) := by
  have hempty : ∀ name : String, name ∈ (∅ : Std.HashSet String) ↔ name ∈ ([] : List String) := by
    simp
  rw [ofDocument, loadEntries_eq_loadAmong hempty]
  cases Number.within 0 1 document.hotKeyPortion with
  | false => rfl
  | true => cases loadAmong [] 0 document.entries <;> rfl

/-- The configuration of a text in a form that can be evaluated. -/
theorem ofText_eq (text : String) : ofText text =
    match ConfigDocument.ofText text with
    | .error fault => .error (.fault fault)
    | .ok document =>
      if Number.within 0 1 document.hotKeyPortion then
        (loadAmong [] 0 document.entries).map fun (separators, ignored) ↦
          ⟨document.operationCount, document.hotKeyPortion, separators, ignored⟩
      else .error (.portionOutOfRange document.hotKeyPortion) := by
  rw [ofText]
  cases ConfigDocument.ofText text with
  | error fault => rfl
  | ok document => exact ofDocument_eq document

/-- What a text is accepted as comes from its document. -/
theorem exists_ofDocument {text : String} {config : Config} (h : ofText text = .ok config) :
    ∃ document, ConfigDocument.ofText text = .ok document ∧ ofDocument document = .ok config := by
  rw [ofText] at h
  cases hdocument : ConfigDocument.ofText text with
  | error fault =>
    rw [hdocument] at h
    cases h
  | ok document =>
    rw [hdocument] at h
    exact ⟨document, rfl, h⟩

/-! ## What a successful load says -/

/-- The entries from position `index` on load as the given specifications and ignored entries when
the names in `taken` have been given out. -/
inductive Loads : List String → Nat → List ConfigEntry → List NamedSpec → List IgnoredEntry → Prop
  | nil {taken : List String} {index : Nat} : Loads taken index [] [] []
  | ignored {taken : List String} {index : Nat} {entry : ConfigEntry} {entries : List ConfigEntry}
      {separators : List NamedSpec} {ignored : List IgnoredEntry} (unknown : entry.policy? = none)
      (rest : Loads taken (index + 1) entries separators ignored) :
      Loads taken index (entry :: entries) separators (⟨index, entry.type⟩ :: ignored)
  | kept {taken : List String} {index : Nat} {entry : ConfigEntry} {entries : List ConfigEntry}
      {separators : List NamedSpec} {ignored : List IgnoredEntry} {policy : Policy}
      {named : NamedSpec}
      (known : entry.policy? = some policy) (read : entry.readSpec index policy = .ok named.spec)
      (given : named.name = nameAmong taken index (entry.baseName policy))
      (rest : Loads (taken ++ [named.name]) (index + 1) entries separators ignored) :
      Loads taken index (entry :: entries) (named :: separators) ignored

theorem loads_of_loadAmong {taken : List String} {index : Nat} {entries : List ConfigEntry}
    {separators : List NamedSpec} {ignored : List IgnoredEntry}
    (h : loadAmong taken index entries = .ok (separators, ignored)) :
    Loads taken index entries separators ignored := by
  induction entries generalizing taken index separators ignored with
  | nil =>
    cases h
    exact .nil
  | cons entry rest ih =>
    rw [loadAmong] at h
    cases hpolicy : entry.policy? with
    | none =>
      rw [hpolicy] at h
      cases hrest : loadAmong taken (index + 1) rest with
      | error error => simp [hrest, bind, Except.bind] at h
      | ok loaded =>
        simp only [hrest, bind, Except.bind, pure, Except.pure, Except.ok.injEq,
          Prod.mk.injEq] at h
        obtain ⟨rfl, rfl⟩ := h
        exact .ignored hpolicy (ih hrest)
    | some policy =>
      rw [hpolicy] at h
      cases hspec : entry.readSpec index policy with
      | error error => simp [hspec, bind, Except.bind] at h
      | ok spec =>
        let name := nameAmong taken index (entry.baseName policy)
        cases hrest : loadAmong (taken ++ [name]) (index + 1) rest with
        | error error => simp [hspec, name, hrest, bind, Except.bind] at h
        | ok loaded =>
          simp only [hspec, name, hrest, bind, Except.bind, pure, Except.pure, Except.ok.injEq,
            Prod.mk.injEq] at h
          obtain ⟨rfl, rfl⟩ := h
          exact .kept hpolicy hspec rfl (ih hrest)

/-- A document is accepted as what its entries load as. -/
theorem loads_of_ofDocument {document : ConfigDocument} {config : Config}
    (h : ofDocument document = .ok config) :
    Loads [] 0 document.entries config.separators config.ignored := by
  rw [ofDocument_eq] at h
  split_ifs at h
  obtain ⟨⟨separators, ignored⟩, hload, rfl⟩ := exists_of_map_eq_ok h
  exact loads_of_loadAmong hload

namespace Loads

variable {taken : List String} {index : Nat} {entries : List ConfigEntry}
  {separators : List NamedSpec} {ignored : List IgnoredEntry}

theorem length_eq (h : Loads taken index entries separators ignored) :
    separators.length = entries.countP ConfigEntry.isKnown := by
  induction h with
  | nil => rfl
  | ignored unknown _ ih =>
    rw [List.countP_cons_of_neg (by simp [ConfigEntry.isKnown, unknown]), ih]
  | kept known _ _ _ ih =>
    rw [List.countP_cons_of_pos (by simp [ConfigEntry.isKnown, known]), List.length_cons, ih]

/-- The entries after the first ones load as if these had only used up names and positions. -/
theorem of_append {before after : List ConfigEntry}
    (h : Loads taken index (before ++ after) separators ignored) :
    ∃ first second skipped left, separators = first ++ second ∧ ignored = skipped ++ left ∧
      Loads taken index before first skipped ∧
      Loads (taken ++ first.map (·.name)) (index + before.length) after second left := by
  induction before generalizing taken index separators ignored with
  | nil => exact ⟨[], separators, [], ignored, rfl, rfl, .nil, by simpa using h⟩
  | cons entry before ih =>
    cases h with
    | ignored unknown rest =>
      obtain ⟨first, second, skipped, left, rfl, rfl, hfirst, hsecond⟩ := ih rest
      refine ⟨first, second, _ :: skipped, left, rfl, rfl, .ignored unknown hfirst, ?_⟩
      rwa [add_length_cons]
    | kept known read given rest =>
      obtain ⟨first, second, skipped, left, rfl, rfl, hfirst, hsecond⟩ := ih rest
      refine ⟨_ :: first, second, skipped, left, rfl, rfl, .kept known read given hfirst, ?_⟩
      rwa [add_length_cons, List.map_cons, List.append_cons]

/-- Every specification comes from an entry of a known type, and the ones before it from the
entries before that one. -/
theorem exists_entry {first second : List NamedSpec} {named : NamedSpec}
    (h : Loads taken index entries (first ++ named :: second) ignored) :
    ∃ before entry after policy skipped, entries = before ++ entry :: after ∧
      entry.policy? = some policy ∧
      entry.readSpec (index + before.length) policy = .ok named.spec ∧
      named.name = nameAmong (taken ++ first.map (·.name)) (index + before.length)
        (entry.baseName policy) ∧
      Loads taken index before first skipped := by
  generalize hall : first ++ named :: second = all at h
  induction h generalizing first with
  | nil => simp at hall
  | @ignored _ index other _ _ _ unknown _ ih =>
    obtain ⟨before, entry, after, policy, skipped, rfl, hpolicy, hread, hname, hbefore⟩ := ih hall
    refine ⟨other :: before, entry, after, policy, _, rfl, hpolicy, ?_, ?_,
      .ignored unknown hbefore⟩
    · rwa [add_length_cons]
    · rwa [add_length_cons]
  | @kept _ index other rest _ _ policy head known read given _ ih =>
    cases first with
    | nil =>
      obtain ⟨rfl, rfl⟩ := List.cons.inj hall
      exact ⟨[], other, rest, policy, [], rfl, known, read, by simpa using given, .nil⟩
    | cons _ first =>
      obtain ⟨rfl, hrest⟩ := List.cons.inj hall
      obtain ⟨before, entry, after, policy, skipped, rfl, hpolicy, hread, hname, hbefore⟩ :=
        ih hrest
      refine ⟨other :: before, entry, after, policy, skipped, rfl, hpolicy, ?_, ?_,
        .kept known read given hbefore⟩
      · rwa [add_length_cons]
      · rwa [add_length_cons, List.map_cons, List.append_cons]

/-- Every entry of a known type has its specification, after the ones of the entries before it. -/
theorem exists_named {before after : List ConfigEntry} {entry : ConfigEntry} {policy : Policy}
    (h : Loads taken index (before ++ entry :: after) separators ignored)
    (hpolicy : entry.policy? = some policy) :
    ∃ first named second skipped, separators = first ++ named :: second ∧
      entry.readSpec (index + before.length) policy = .ok named.spec ∧
      named.name = nameAmong (taken ++ first.map (·.name)) (index + before.length)
        (entry.baseName policy) ∧
      Loads taken index before first skipped := by
  obtain ⟨first, second, skipped, left, rfl, -, hfirst, hsecond⟩ := h.of_append
  cases hsecond with
  | ignored unknown => simp [hpolicy] at unknown
  | kept known read given =>
    cases known.symm.trans hpolicy
    exact ⟨first, _, _, skipped, rfl, read, given, hfirst⟩

end Loads

end Config

end KeyHeat

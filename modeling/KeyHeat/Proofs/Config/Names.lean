import KeyHeat.Proofs.Config.Entries
import Mathlib.Data.List.Induction
import Mathlib.Data.List.Nodup

/-!
# The names of the instances

An entry whose name is taken gets its position appended, and the result is not looked up again. A
name with a position as suffix is never the tag of a policy, and two of them differ when the
positions do. So two instances share a name exactly when such a name has been given to an earlier
entry on purpose.
-/

namespace KeyHeat

/-! ## Names that end in a position -/

/-- The digits at the end of a name, last first. -/
def trailingDigits (name : String) : List Char := name.toList.reverse.takeWhile Char.isDigit

theorem trailingDigits_suffixed (base : String) (index : Nat) :
    trailingDigits s!"{base}_{index}" = (Nat.toDigits 10 index).reverse := by
  have hlist : s!"{base}_{index}".toList = base.toList ++ '_' :: Nat.toDigits 10 index := by
    have hsplit : s!"{base}_{index}" = base ++ ("_" ++ String.ofList (Nat.toDigits 10 index)) := by
      rw [← Nat.toString_eq_ofList_toDigits, ← String.append_assoc]
      rfl
    rw [hsplit, String.toList_append, String.toList_append, String.toList_ofList,
      String.toList_ofList]
    rfl
  have hdigits : ∀ c ∈ (Nat.toDigits 10 index).reverse, c.isDigit = true := by
    intro c hc
    exact Nat.isDigit_of_mem_toDigits (by decide) (by decide) (List.mem_reverse.mp hc)
  rw [trailingDigits, hlist, List.reverse_append, List.reverse_cons, List.append_assoc,
    List.takeWhile_append_of_pos hdigits]
  simp

theorem suffixed_inj {base other : String} {i j : Nat} (h : s!"{base}_{i}" = s!"{other}_{j}") :
    i = j := by
  have hdigits : Nat.toDigits 10 i = Nat.toDigits 10 j := by
    have htrailing := congrArg trailingDigits h
    rwa [trailingDigits_suffixed, trailingDigits_suffixed, List.reverse_inj] at htrailing
  exact toDigits_inj hdigits

theorem Policy.tag_ne_suffixed (policy : Policy) (base : String) (index : Nat) :
    policy.tag ≠ s!"{base}_{index}" := by
  intro h
  have hnone : trailingDigits policy.tag = [] := by cases policy <;> decide
  rw [h, trailingDigits_suffixed, List.reverse_eq_nil_iff] at hnone
  exact Nat.toDigits_ne_nil hnone

/-! ## The name of one instance -/

theorem nameAmong_mem_iff {taken : List String} {index : Nat} {base : String} :
    nameAmong taken index base ∈ taken ↔ base ∈ taken ∧ s!"{base}_{index}" ∈ taken := by
  unfold nameAmong
  split_ifs with htaken
  · exact ⟨fun h ↦ ⟨htaken, h⟩, And.right⟩
  · exact ⟨fun h ↦ absurd h htaken, fun h ↦ absurd h.1 htaken⟩

namespace ConfigEntry

/-- A name with a later position as suffix is new after an entry only if the entry was given it. -/
theorem suffixed_mem_iff {taken : List String} {entry : ConfigEntry} {policy : Policy}
    {base : String} {index i : Nat} (hi : index ≠ i) :
    s!"{base}_{i}" ∈ taken ++ [nameAmong taken index (entry.baseName policy)] ↔
      s!"{base}_{i}" ∈ taken ∨ entry.name = some s!"{base}_{i}" := by
  have hbase : entry.baseName policy = s!"{base}_{i}" ↔ entry.name = some s!"{base}_{i}" := by
    unfold baseName
    cases entry.name with
    | none => simpa using policy.tag_ne_suffixed base i
    | some name => simp
  rw [List.mem_append, List.mem_singleton, nameAmong]
  split_ifs with htaken
  · constructor
    · rintro (h | h)
      · exact .inl h
      · exact absurd (suffixed_inj h).symm hi
    · rintro (h | h)
      · exact .inl h
      · exact .inl (hbase.mpr h ▸ htaken)
  · rw [← hbase, eq_comm]

end ConfigEntry

namespace Config

namespace Loads

variable {taken : List String} {index : Nat} {entries : List ConfigEntry}
  {separators : List NamedSpec} {ignored : List IgnoredEntry}

theorem suffixed_mem_names_iff (h : Loads taken index entries separators ignored) {base : String}
    {i : Nat} (hi : index + entries.length ≤ i) :
    s!"{base}_{i}" ∈ taken ++ separators.map (·.name) ↔
      s!"{base}_{i}" ∈ taken ∨
        ∃ entry ∈ entries, entry.isKnown ∧ entry.name = some s!"{base}_{i}" := by
  induction h with
  | nil => simp
  | ignored unknown _ ih =>
    rw [List.length_cons] at hi
    rw [ih (by omega)]
    simp [ConfigEntry.isKnown, unknown]
  | kept known _ given _ ih =>
    rw [List.length_cons] at hi
    rw [List.map_cons, List.append_cons, ih (by omega), given,
      ConfigEntry.suffixed_mem_iff (by omega), or_assoc]
    simp [ConfigEntry.isKnown, known]

/-- The names of the first entries, picked out of all names by the number of these entries. -/
theorem take_names (h : Loads taken index entries separators ignored) (others : List NamedSpec) :
    ((separators ++ others).map (·.name)).take (entries.countP (·.isKnown)) =
      separators.map (·.name) := by
  rw [← h.length_eq, ← List.map_take, List.take_left]

/-- The names given to the first entries and the name of the entry after them clash when its name
is taken and the entry that it would be renamed to is there as well. -/
theorem name_mem_iff {before : List ConfigEntry} {first : List NamedSpec} {base : String}
    (h : Loads [] 0 before first ignored) :
    nameAmong (first.map (·.name)) before.length base ∈ first.map (·.name) ↔
      base ∈ first.map (·.name) ∧ ∃ earlier ∈ before, earlier.isKnown ∧
        earlier.name = some s!"{base}_{before.length}" := by
  have hsuffixed : s!"{base}_{before.length}" ∈ [] ++ first.map (·.name) ↔ _ :=
    h.suffixed_mem_names_iff (by omega)
  simp only [List.nil_append, List.not_mem_nil, false_or] at hsuffixed
  rw [nameAmong_mem_iff, hsuffixed]

end Loads

theorem nodup_iff_forall_append {α : Type} {list : List α} :
    list.Nodup ↔ ∀ first a second, list = first ++ a :: second → a ∉ first := by
  constructor
  · rintro hnodup first a second rfl ha
    exact (List.nodup_append.mp hnodup).2.2 a ha a List.mem_cons_self rfl
  · intro h
    induction list using List.reverseRecOn with
    | nil => exact List.nodup_nil
    | append_singleton list a ih =>
      have hlist : list.Nodup :=
        ih fun first b second hsplit ↦ h first b (second ++ [a]) (by simp [hsplit])
      have ha : a ∉ list := h list a [] rfl
      exact List.nodup_append.mpr ⟨hlist, List.nodup_singleton a, by grind⟩

/-- The name of an entry is taken by one before it, and a known entry before it was given this name
with the position of the later entry as suffix. -/
def Clash (names : List String) (entries : List ConfigEntry) : Prop :=
  ∃ before entry after policy, entries = before ++ entry :: after ∧ entry.policy? = some policy ∧
    entry.baseName policy ∈ names.take (before.countP (·.isKnown)) ∧
    ∃ earlier ∈ before, earlier.isKnown ∧
      earlier.name = some s!"{entry.baseName policy}_{before.length}"

/-- The instances of an accepted document have different names exactly when no given name clashes
with one that a later entry is renamed to. -/
theorem nodup_iff_of_ofDocument {document : ConfigDocument} {config : Config}
    (h : ofDocument document = .ok config) :
    (config.separators.map (·.name)).Nodup ↔
      ¬ Clash (config.separators.map (·.name)) document.entries := by
  have hloads := loads_of_ofDocument h
  rw [nodup_iff_forall_append]
  constructor
  · rintro hfresh ⟨before, entry, after, policy, hentries, hpolicy, htaken, hearlier⟩
    rw [hentries] at hloads
    obtain ⟨first, named, second, skipped, hseparators, -, hnamed, hfirst⟩ :=
      hloads.exists_named hpolicy
    rw [List.nil_append, Nat.zero_add] at hnamed
    rw [hseparators, hfirst.take_names] at htaken
    have hmem : named.name ∈ first.map (·.name) := by
      rw [hnamed, hfirst.name_mem_iff]
      exact ⟨htaken, hearlier⟩
    exact hfresh (first.map (·.name)) named.name (second.map (·.name)) (by simp [hseparators]) hmem
  · intro hclash names name rest hnames hmem
    obtain ⟨first, others, hseparators, rfl, hothers⟩ := List.map_eq_append_iff.mp hnames
    obtain ⟨named, second, rfl, rfl, -⟩ := List.map_eq_cons_iff.mp hothers
    rw [hseparators] at hloads
    obtain ⟨before, entry, after, policy, skipped, hentries, hpolicy, -, hnamed, hbefore⟩ :=
      hloads.exists_entry
    rw [List.nil_append, Nat.zero_add] at hnamed
    rw [hnamed, hbefore.name_mem_iff] at hmem
    refine hclash ⟨before, entry, after, policy, hentries, hpolicy, ?_, hmem.2⟩
    rw [hseparators, hbefore.take_names]
    exact hmem.1

/-- The names of a configuration that a text is accepted as, by the entries of its document. -/
theorem names_nodup_iff {text : String} {config : Config} (h : ofText text = .ok config) :
    ∃ document, ConfigDocument.ofText text = .ok document ∧
      ((config.separators.map (·.name)).Nodup ↔
        ¬ Clash (config.separators.map (·.name)) document.entries) := by
  obtain ⟨document, hdocument, hconfig⟩ := exists_ofDocument h
  exact ⟨document, hdocument, nodup_iff_of_ofDocument hconfig⟩

/-- Three entries of one type, the first of which is given a name. -/
def namedText (name : String) : String :=
  "\x7b\"operationcount\": 1000, \"hot_key_portion\": 0.1, \"heat_separators\": [" ++
    "\x7b\"type\": \"lru\", \"name\": \"" ++ name ++
    "\", \"params\": \x7b\"capacity\": 8\x7d\x7d, " ++
    "\x7b\"type\": \"lru\", \"params\": \x7b\"capacity\": 16\x7d\x7d, " ++
    "\x7b\"type\": \"lru\", \"params\": \x7b\"capacity\": 32\x7d\x7d]\x7d"

theorem names_nodup_iff_renamed : ∃ config document,
    ofText (namedText "lru") = .ok config ∧ ConfigDocument.ofText (namedText "lru") = .ok document ∧
      config.separators.map (·.name) = ["lru", "lru_1", "lru_2"] ∧
      ¬ Clash (config.separators.map (·.name)) document.entries := by
  have hloaded : ((ofText (namedText "lru")).toOption.map fun config ↦
      config.separators.map (·.name)) = some ["lru", "lru_1", "lru_2"] := by
    rw [ofText_eq]
    decide +kernel
  obtain ⟨config, hconfig, hnames⟩ := Option.map_eq_some_iff.mp hloaded
  have hconfig : ofText (namedText "lru") = .ok config := eq_ok_of_toOption hconfig
  obtain ⟨document, hdocument, hiff⟩ := names_nodup_iff hconfig
  exact ⟨config, document, hconfig, hdocument, hnames, hiff.mp (by rw [hnames]; decide)⟩

/-- The third entry is renamed to what the first one is called. -/
theorem names_not_nodup : ∃ config,
    ofText (namedText "lru_2") = .ok config ∧ ¬ (config.separators.map (·.name)).Nodup := by
  have hloaded : ((ofText (namedText "lru_2")).toOption.map fun config ↦
      config.separators.map (·.name)) = some ["lru_2", "lru", "lru_2"] := by
    rw [ofText_eq]
    decide +kernel
  obtain ⟨config, hconfig, hnames⟩ := Option.map_eq_some_iff.mp hloaded
  exact ⟨config, eq_ok_of_toOption hconfig, by rw [hnames]; decide⟩

end Config

end KeyHeat

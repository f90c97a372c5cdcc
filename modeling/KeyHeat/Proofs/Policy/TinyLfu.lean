import KeyHeat.Policy.TinyLfu
import KeyHeat.Proofs.Container.KeyedList
import KeyHeat.Proofs.Number.Word

/-!
# The segments of Window TinyLFU share out the keys

No key is in two segments, and each segment keeps to its quota. Promotions and contests trade one
key for another, so the main area never overflows.
-/

namespace KeyHeat.TinyLfu

variable {κ : Type} [BEq κ] [Hashable κ]

/-- Three separate lists, the first and the last within a quota of their own, the last two within
a common one. -/
structure Segments (window probation guarded : KeyedList κ)
    (windowQuota mainQuota guardedQuota : Nat) : Prop where
  valid_window : window.Valid
  valid_probation : probation.Valid
  valid_guarded : guarded.Valid
  window_probation : window.Apart probation
  window_guarded : window.Apart guarded
  probation_guarded : probation.Apart guarded
  window_le : window.length ≤ windowQuota
  guarded_le : guarded.length ≤ guardedQuota
  main_le : probation.length + guarded.length ≤ mainQuota

/-- A key that is in none of three lists. -/
structure Absent (key : κ) (window probation guarded : KeyedList κ) : Prop where
  window : key ∉ window.toList
  probation : key ∉ probation.toList
  guarded : key ∉ guarded.toList

/-- The segments fit their quotas, which divide the capacity. -/
structure Valid (cache : TinyLfu κ) : Prop where
  segments : Segments cache.window cache.probation cache.guarded cache.windowQuota
    cache.mainQuota cache.guardedQuota
  capacity_eq : cache.capacity = cache.windowQuota + cache.mainQuota

/-! ## Moving one key -/

section Segments

variable [LawfulBEq κ] {window probation guarded : KeyedList κ}
  {windowQuota mainQuota guardedQuota : Nat} {key : κ}

theorem Segments.push_probation
    (h : Segments window probation guarded windowQuota mainQuota guardedQuota)
    (habsent : Absent key window probation guarded)
    (hroom : probation.length + guarded.length < mainQuota) :
    Segments window (probation.push .front key) guarded windowQuota mainQuota guardedQuota where
  valid_window := h.valid_window
  valid_probation := h.valid_probation.push .front key
  valid_guarded := h.valid_guarded
  window_probation := (h.window_probation.symm.push h.valid_probation .front habsent.window).symm
  window_guarded := h.window_guarded
  probation_guarded := h.probation_guarded.push h.valid_probation .front habsent.guarded
  window_le := h.window_le
  guarded_le := h.guarded_le
  main_le := by
    rw [h.valid_probation.length_push .front habsent.probation]
    omega

theorem Segments.push_guarded
    (h : Segments window probation guarded windowQuota mainQuota guardedQuota)
    (habsent : Absent key window probation guarded)
    (hroom : probation.length + guarded.length < mainQuota)
    (hguarded : guarded.length < guardedQuota) :
    Segments window probation (guarded.push .front key) windowQuota mainQuota guardedQuota where
  valid_window := h.valid_window
  valid_probation := h.valid_probation
  valid_guarded := h.valid_guarded.push .front key
  window_probation := h.window_probation
  window_guarded := (h.window_guarded.symm.push h.valid_guarded .front habsent.window).symm
  probation_guarded :=
    (h.probation_guarded.symm.push h.valid_guarded .front habsent.probation).symm
  window_le := h.window_le
  guarded_le := by
    rw [h.valid_guarded.length_push .front habsent.guarded]
    exact hguarded
  main_le := by
    rw [h.valid_guarded.length_push .front habsent.guarded]
    omega

theorem Segments.erase_probation
    (h : Segments window probation guarded windowQuota mainQuota guardedQuota)
    (hmem : key ∈ probation.toList) :
    Segments window (probation.erase key) guarded windowQuota mainQuota guardedQuota ∧
      Absent key window (probation.erase key) guarded ∧
      (probation.erase key).length + guarded.length < mainQuota := by
  have hlength := h.valid_probation.length_erase hmem
  have hmain := h.main_le
  have hroom : (probation.erase key).length + guarded.length < mainQuota := by omega
  have hgone : key ∉ (probation.erase key).toList := by
    intro hin
    exact (h.valid_probation.mem_erase.1 hin).1 rfl
  have hsegments : Segments window (probation.erase key) guarded windowQuota mainQuota
      guardedQuota := by
    refine ⟨h.valid_window, h.valid_probation.erase key, h.valid_guarded, ?_, h.window_guarded,
      h.probation_guarded.erase h.valid_probation key, h.window_le, h.guarded_le,
      Nat.le_of_lt hroom⟩
    exact (h.window_probation.symm.erase h.valid_probation key).symm
  have habsent : Absent key window (probation.erase key) guarded :=
    ⟨h.window_probation.symm key hmem, hgone, h.probation_guarded key hmem⟩
  exact ⟨hsegments, habsent, hroom⟩

theorem Segments.erase_guarded
    (h : Segments window probation guarded windowQuota mainQuota guardedQuota)
    (hmem : key ∈ guarded.toList) :
    Segments window probation (guarded.erase key) windowQuota mainQuota guardedQuota ∧
      Absent key window probation (guarded.erase key) ∧
      probation.length + (guarded.erase key).length < mainQuota ∧
      (guarded.erase key).length < guardedQuota := by
  have hlength := h.valid_guarded.length_erase hmem
  have hmain := h.main_le
  have hquota := h.guarded_le
  have hroom : probation.length + (guarded.erase key).length < mainQuota := by omega
  have hfits : (guarded.erase key).length < guardedQuota := by omega
  have hgone : key ∉ (guarded.erase key).toList := by
    intro hin
    exact (h.valid_guarded.mem_erase.1 hin).1 rfl
  have hsegments : Segments window probation (guarded.erase key) windowQuota mainQuota
      guardedQuota := by
    refine ⟨h.valid_window, h.valid_probation, h.valid_guarded.erase key, h.window_probation,
      ?_, ?_, h.window_le, Nat.le_of_lt hfits, Nat.le_of_lt hroom⟩
    · exact (h.window_guarded.symm.erase h.valid_guarded key).symm
    · exact (h.probation_guarded.symm.erase h.valid_guarded key).symm
  have habsent : Absent key window probation (guarded.erase key) :=
    ⟨h.window_guarded.symm key hmem, h.probation_guarded.symm key hmem, hgone⟩
  exact ⟨hsegments, habsent, hroom, hfits⟩

theorem Segments.touch_window
    (h : Segments window probation guarded windowQuota mainQuota guardedQuota) (key : κ) :
    Segments (window.touch .front key) probation guarded windowQuota mainQuota guardedQuota where
  valid_window := h.valid_window.touch .front key
  valid_probation := h.valid_probation
  valid_guarded := h.valid_guarded
  window_probation := h.window_probation.touch h.valid_window .front key
  window_guarded := h.window_guarded.touch h.valid_window .front key
  probation_guarded := h.probation_guarded
  window_le := by
    rw [h.valid_window.length_touch]
    exact h.window_le
  guarded_le := h.guarded_le
  main_le := h.main_le

theorem Segments.touch_guarded
    (h : Segments window probation guarded windowQuota mainQuota guardedQuota) (key : κ) :
    Segments window probation (guarded.touch .front key) windowQuota mainQuota guardedQuota where
  valid_window := h.valid_window
  valid_probation := h.valid_probation
  valid_guarded := h.valid_guarded.touch .front key
  window_probation := h.window_probation
  window_guarded := (h.window_guarded.symm.touch h.valid_guarded .front key).symm
  probation_guarded := (h.probation_guarded.symm.touch h.valid_guarded .front key).symm
  window_le := h.window_le
  guarded_le := by
    rw [h.valid_guarded.length_touch]
    exact h.guarded_le
  main_le := by
    rw [h.valid_guarded.length_touch]
    exact h.main_le

theorem Absent.push_probation (h : Absent key window probation guarded)
    (hprobation : probation.Valid) {other : κ} (hne : key ≠ other) :
    Absent key window (probation.push .front other) guarded where
  window := h.window
  probation := by
    rw [hprobation.mem_push_of_ne .front hne]
    exact h.probation
  guarded := h.guarded

theorem Absent.erase_probation (h : Absent key window probation guarded)
    (hprobation : probation.Valid) (other : κ) :
    Absent key window (probation.erase other) guarded where
  window := h.window
  probation hin := h.probation (hprobation.mem_erase.1 hin).2
  guarded := h.guarded

theorem Absent.erase_guarded (h : Absent key window probation guarded)
    (hguarded : guarded.Valid) (other : κ) :
    Absent key window probation (guarded.erase other) where
  window := h.window
  probation := h.probation
  guarded hin := h.guarded (hguarded.mem_erase.1 hin).2

omit [LawfulBEq κ] in
theorem Segments.nodup
    (h : Segments window probation guarded windowQuota mainQuota guardedQuota) :
    (window.toList ++ probation.toList ++ guarded.toList).Nodup := by
  rw [List.nodup_append', List.nodup_append']
  refine ⟨⟨h.valid_window.nodup_toList, h.valid_probation.nodup_toList, h.window_probation⟩,
    h.valid_guarded.nodup_toList, ?_⟩
  intro key hfirst
  rcases List.mem_append.1 hfirst with hwindow | hprobation
  · exact h.window_guarded key hwindow
  · exact h.probation_guarded key hprobation

end Segments

variable {cache : TinyLfu κ}

/-! ## Outcomes -/

/-- The quotas of the window, the main area and protected keys, and the capacity. -/
def quotas (cache : TinyLfu κ) : Nat × Nat × Nat × Nat :=
  (cache.windowQuota, cache.mainQuota, cache.guardedQuota, cache.capacity)

theorem quotas_promote (key : κ) : (cache.promote key).quotas = cache.quotas := by
  unfold promote
  split_ifs
  · rfl
  · split <;> rfl
  · rfl

theorem quotas_replace (victim candidate : κ) :
    (cache.replace victim candidate).quotas = cache.quotas := by
  unfold replace
  split <;> rfl

theorem Valid.size_le (h : cache.Valid) : cache.size ≤ cache.capacity := by
  rw [h.capacity_eq]
  exact Nat.add_le_add h.segments.window_le h.segments.main_le

theorem Valid.mem_of_victim? (h : cache.Valid) {victim : κ}
    (hvictim : cache.victim? = some victim) :
    victim ∈ cache.probation.toList ∨ victim ∈ cache.guarded.toList := by
  rw [victim?, h.segments.valid_probation.peek?_back, h.segments.valid_guarded.peek?_back,
    Option.or_eq_some_iff] at hvictim
  rcases hvictim with hprobation | ⟨-, hguarded⟩
  · exact .inl (List.mem_of_getLast? hprobation)
  · exact .inr (List.mem_of_getLast? hguarded)

theorem Valid.nodup_hotKeys (h : cache.Valid) : cache.hotKeys.Nodup :=
  List.nodup_append'.2 ⟨h.segments.valid_guarded.nodup_toList,
    h.segments.valid_probation.nodup_toList, h.segments.probation_guarded.symm⟩

section Outcomes

variable [HashMaterial κ]

theorem quotas_contest (candidate : κ) : (cache.contest candidate).quotas = cache.quotas := by
  unfold contest
  split_ifs
  · rfl
  · cases cache.victim? with
    | none => rfl
    | some victim =>
      dsimp only
      split_ifs
      · exact quotas_replace victim candidate
      · rfl

theorem quotas_enter (key : κ) : (cache.enter key).quotas = cache.quotas := by
  unfold enter
  dsimp only
  split_ifs
  · split
    · exact quotas_contest _
    · rfl
  · rfl

/-- Counting an access changes nothing but what is counted. -/
theorem count_eq (cache : TinyLfu κ) (key : κ) : ∃ sketch doorkeeper accesses agings,
    cache.count key = { cache with sketch, doorkeeper, accesses, agings } := by
  unfold count
  dsimp only
  split_ifs <;> exact ⟨_, _, _, _, rfl⟩

theorem quotas_count (key : κ) : (cache.count key).quotas = cache.quotas := by
  obtain ⟨sketch, doorkeeper, accesses, agings, heq⟩ := cache.count_eq key
  rw [heq]
  rfl

theorem quotas_place (key : κ) : (cache.place key).quotas = cache.quotas := by
  unfold place
  split
  · rfl
  · split
    · rfl
    · split
      · exact quotas_promote key
      · exact quotas_enter key

theorem quotas_access (key : κ) : (cache.access key).2.quotas = cache.quotas := by
  unfold access
  split_ifs
  · rfl
  · exact (quotas_place key).trans (quotas_count key)

theorem capacity_access (key : κ) : (cache.access key).2.capacity = cache.capacity :=
  congrArg (·.2.2.2) (quotas_access key)

theorem access_fst (key : κ) :
    (cache.access key).1 = if cache.capacity = 0 then .error .capacity else .ok () := by
  unfold access
  split_ifs <;> rfl

end Outcomes

/-! ## Accesses -/

variable [LawfulBEq κ] {key : κ}

theorem replace_eq (cache : TinyLfu κ) (victim candidate : κ) (hprobation : cache.probation.Valid) :
    cache.replace victim candidate =
      if cache.probation.contains victim then
        { cache with probation := (cache.probation.erase victim).push .front candidate }
      else
        { cache with
          guarded := cache.guarded.erase victim
          probation := cache.probation.push .front candidate } := by
  unfold replace
  by_cases hmem : victim ∈ cache.probation.toList
  · rw [hprobation.remove_of_mem hmem, if_pos (hprobation.contains_iff.2 hmem)]
  · rw [hprobation.remove_of_not_mem hmem, if_neg (mt hprobation.contains_iff.1 hmem)]

/-- A key is moved in the segment that has it. -/
theorem Valid.place_eq [HashMaterial κ] (h : cache.Valid) (key : κ) :
    cache.place key =
      if cache.window.contains key then { cache with window := cache.window.touch .front key }
      else if cache.guarded.contains key then
        { cache with guarded := cache.guarded.touch .front key }
      else if cache.probation.contains key then
        { cache with probation := cache.probation.erase key }.promote key
      else cache.enter key := by
  have hwindow := h.segments.valid_window
  have hguarded := h.segments.valid_guarded
  have hprobation := h.segments.valid_probation
  unfold TinyLfu.place
  by_cases hin : key ∈ cache.window.toList
  · rw [hwindow.move_of_mem .front hin, if_pos (hwindow.contains_iff.2 hin)]
  rw [hwindow.move_of_not_mem .front hin, if_neg (mt hwindow.contains_iff.1 hin)]
  dsimp only
  by_cases hin' : key ∈ cache.guarded.toList
  · rw [hguarded.move_of_mem .front hin', if_pos (hguarded.contains_iff.2 hin')]
  rw [hguarded.move_of_not_mem .front hin', if_neg (mt hguarded.contains_iff.1 hin')]
  dsimp only
  by_cases hin'' : key ∈ cache.probation.toList
  · rw [hprobation.remove_of_mem hin'', if_pos (hprobation.contains_iff.2 hin'')]
  · rw [hprobation.remove_of_not_mem hin'', if_neg (mt hprobation.contains_iff.1 hin'')]

/-- A key that left probation goes up, and whatever it displaces fits where it came from. -/
theorem Valid.promote (h : cache.Valid)
    (habsent : Absent key cache.window cache.probation cache.guarded)
    (hroom : cache.mainSize < cache.mainQuota) : (cache.promote key).Valid := by
  have hsegments := h.segments
  have hprobation := hsegments.valid_probation
  have hguarded := hsegments.valid_guarded
  unfold TinyLfu.promote
  split_ifs with hzero hfull
  · exact ⟨hsegments.push_probation habsent hroom, h.capacity_eq⟩
  · rw [hguarded.pop_eq, hguarded.peek?_back]
    cases hlast : cache.guarded.toList.getLast? with
    | none =>
      have hlength := hguarded.length_eq
      rw [List.getLast?_eq_none_iff.1 hlast, List.length_nil] at hlength
      omega
    | some demoted =>
      have hmem := List.mem_of_getLast? hlast
      obtain ⟨herased, hdemoted, hmain, hfits⟩ := hsegments.erase_guarded hmem
      have hne : key ≠ demoted := fun heq ↦ habsent.guarded (heq ▸ hmem)
      have hpushed := herased.push_probation hdemoted hmain
      have habsent' : Absent key cache.window (cache.probation.push .front demoted)
          (cache.guarded.erase demoted) :=
        (habsent.erase_guarded hguarded demoted).push_probation hprobation hne
      have hroom' : (cache.probation.push .front demoted).length +
          (cache.guarded.erase demoted).length < cache.mainQuota := by
        have hlonger := hprobation.length_push .front hdemoted.probation
        have hshorter := hguarded.length_erase hmem
        have hsize : cache.probation.length + cache.guarded.length < cache.mainQuota := hroom
        omega
      exact ⟨hpushed.push_guarded habsent' hroom' hfits, h.capacity_eq⟩
  · exact ⟨hsegments.push_guarded habsent hroom (Nat.lt_of_not_le hfull), h.capacity_eq⟩

theorem Valid.replace (h : cache.Valid)
    (habsent : Absent key cache.window cache.probation cache.guarded) {victim : κ}
    (hvictim : victim ∈ cache.probation.toList ∨ victim ∈ cache.guarded.toList) :
    (cache.replace victim key).Valid := by
  have hsegments := h.segments
  rw [replace_eq _ _ _ hsegments.valid_probation]
  split_ifs with hprobation
  · rw [hsegments.valid_probation.contains_iff] at hprobation
    obtain ⟨herased, -, hmain⟩ := hsegments.erase_probation hprobation
    have habsent' := habsent.erase_probation hsegments.valid_probation victim
    exact ⟨herased.push_probation habsent' hmain, h.capacity_eq⟩
  · rw [hsegments.valid_probation.contains_iff] at hprobation
    obtain ⟨herased, -, hmain, -⟩ := hsegments.erase_guarded (hvictim.resolve_left hprobation)
    have habsent' := habsent.erase_guarded hsegments.valid_guarded victim
    exact ⟨herased.push_probation habsent' hmain, h.capacity_eq⟩

variable [HashMaterial κ]

theorem Valid.contest (h : cache.Valid)
    (habsent : Absent key cache.window cache.probation cache.guarded) :
    (cache.contest key).Valid := by
  unfold TinyLfu.contest
  split_ifs with hroom
  · exact ⟨h.segments.push_probation habsent hroom, h.capacity_eq⟩
  · cases hvictim : cache.victim? with
    | none => exact h
    | some victim =>
      have hdoor : Valid { cache with doorkeeper := (cache.doorkeeper.allow key).2 } :=
        ⟨h.segments, h.capacity_eq⟩
      dsimp only
      split_ifs
      · exact hdoor.replace habsent (h.mem_of_victim? hvictim)
      · exact hdoor

/-- A new key may push the oldest one out of the window. -/
theorem Valid.enter (h : cache.Valid)
    (habsent : Absent key cache.window cache.probation cache.guarded) :
    (cache.enter key).Valid := by
  have hsegments := h.segments
  have hpushed := hsegments.valid_window.push .front key
  have hlength := hsegments.valid_window.length_push .front habsent.window
  have hwindow := hsegments.window_le
  have hprobation : (cache.window.push .front key).Apart cache.probation :=
    hsegments.window_probation.push hsegments.valid_window .front habsent.probation
  have hguarded : (cache.window.push .front key).Apart cache.guarded :=
    hsegments.window_guarded.push hsegments.valid_window .front habsent.guarded
  unfold TinyLfu.enter
  dsimp only
  split_ifs with hfull
  · rw [hpushed.pop_eq, hpushed.peek?_back]
    cases hlast : (cache.window.push .front key).toList.getLast? with
    | none =>
      have hempty := hpushed.length_eq
      rw [List.getLast?_eq_none_iff.1 hlast, List.length_nil] at hempty
      omega
    | some candidate =>
      have hmem := List.mem_of_getLast? hlast
      have hshorter := hpushed.length_erase hmem
      have hfits : ((cache.window.push .front key).erase candidate).length ≤ cache.windowQuota := by
        omega
      have hsegments' : Segments ((cache.window.push .front key).erase candidate) cache.probation
          cache.guarded cache.windowQuota cache.mainQuota cache.guardedQuota :=
        ⟨hpushed.erase candidate, hsegments.valid_probation, hsegments.valid_guarded,
          hprobation.erase hpushed candidate, hguarded.erase hpushed candidate,
          hsegments.probation_guarded, hfits, hsegments.guarded_le, hsegments.main_le⟩
      have habsent' : Absent candidate ((cache.window.push .front key).erase candidate)
          cache.probation cache.guarded :=
        ⟨fun hin ↦ (hpushed.mem_erase.1 hin).1 rfl, hprobation candidate hmem,
          hguarded candidate hmem⟩
      have hvalid : Valid { cache with
          window := (cache.window.push .front key).erase candidate } :=
        ⟨hsegments', h.capacity_eq⟩
      exact hvalid.contest habsent'
  · have hsegments' : Segments (cache.window.push .front key) cache.probation cache.guarded
        cache.windowQuota cache.mainQuota cache.guardedQuota :=
      ⟨hpushed, hsegments.valid_probation, hsegments.valid_guarded, hprobation, hguarded,
        hsegments.probation_guarded, Nat.le_of_not_lt hfull, hsegments.guarded_le,
        hsegments.main_le⟩
    exact ⟨hsegments', h.capacity_eq⟩

omit [LawfulBEq κ] in
theorem Valid.count (h : cache.Valid) (key : κ) : (cache.count key).Valid := by
  obtain ⟨sketch, doorkeeper, accesses, agings, heq⟩ := cache.count_eq key
  rw [heq]
  exact ⟨h.segments, h.capacity_eq⟩

theorem Valid.place (h : cache.Valid) (key : κ) : (cache.place key).Valid := by
  have hsegments := h.segments
  rw [h.place_eq]
  split_ifs with hwindow hguarded hprobation
  · exact ⟨hsegments.touch_window key, h.capacity_eq⟩
  · exact ⟨hsegments.touch_guarded key, h.capacity_eq⟩
  · rw [hsegments.valid_probation.contains_iff] at hprobation
    obtain ⟨herased, habsent, hmain⟩ := hsegments.erase_probation hprobation
    have hvalid : Valid { cache with probation := cache.probation.erase key } :=
      ⟨herased, h.capacity_eq⟩
    exact hvalid.promote habsent hmain
  · rw [hsegments.valid_window.contains_iff] at hwindow
    rw [hsegments.valid_guarded.contains_iff] at hguarded
    rw [hsegments.valid_probation.contains_iff] at hprobation
    exact h.enter ⟨hwindow, hprobation, hguarded⟩

theorem Valid.access (h : cache.Valid) (key : κ) : (cache.access key).2.Valid := by
  unfold TinyLfu.access
  split_ifs
  · exact h
  · exact (h.count key).place key

/-! ## Reports -/

omit [HashMaterial κ]

theorem Valid.check_eq (h : cache.Valid) : cache.check = .ok () := by
  have hsegments := h.segments
  have hguarded : (cache.window.toList ++ cache.probation.toList).countP
      cache.guarded.contains = 0 := by
    rw [List.countP_eq_zero]
    intro key hmem
    rw [hsegments.valid_guarded.contains_iff]
    rcases List.mem_append.1 hmem with hwindow | hprobation
    · exact hsegments.window_guarded key hwindow
    · exact hsegments.probation_guarded key hprobation
  have hprobation : cache.window.toList.countP cache.probation.contains = 0 := by
    rw [List.countP_eq_zero]
    intro key hmem
    rw [hsegments.valid_probation.contains_iff]
    exact hsegments.window_probation key hmem
  have hmain : cache.mainSize ≤ cache.mainQuota := hsegments.main_le
  rw [check, hsegments.valid_window.check_eq, hsegments.valid_probation.check_eq,
    hsegments.valid_guarded.check_eq, hguarded, hprobation]
  simp [Nat.not_lt.2 hsegments.window_le, Nat.not_lt.2 hsegments.guarded_le, Nat.not_lt.2 hmain,
    bind, Except.bind, pure, Except.pure]

theorem Valid.mem_hotKeys (h : cache.Valid) : key ∈ cache.hotKeys ↔ cache.isHot key = true := by
  rw [hotKeys, List.mem_append, isHot, Bool.or_eq_true, h.segments.valid_guarded.contains_iff,
    h.segments.valid_probation.contains_iff]

theorem valid_ofQuotas (windowQuota mainQuota guardedQuota samplePeriod : Nat) (seed : UInt64) :
    (ofQuotas windowQuota mainQuota guardedQuota samplePeriod seed : TinyLfu κ).Valid := by
  have hapart : (KeyedList.empty : KeyedList κ).Apart .empty :=
    fun _ hmem ↦ (List.not_mem_nil hmem).elim
  have hsegments : Segments (.empty : KeyedList κ) .empty .empty windowQuota mainQuota
      guardedQuota :=
    ⟨KeyedList.valid_empty, KeyedList.valid_empty, KeyedList.valid_empty, hapart, hapart, hapart,
      Nat.zero_le _, Nat.zero_le _, Nat.zero_le _⟩
  exact ⟨hsegments, rfl⟩

/-- The sizes are in range unless the window is as large as a word allows, protected keys get more
than the main area, or the rows of the sketch have no power of two. -/
theorem checkSizes_eq (windowQuota mainQuota guardedQuota : Nat) :
    checkSizes windowQuota mainQuota guardedQuota =
      if Number.wordLimit ≤ windowQuota + 1 then .error .addition
      else if mainQuota < guardedQuota then .error .subtraction
      else if Number.wordLimit / 2 < max (windowQuota + mainQuota) 8 then .error .addition
      else .ok () := by
  unfold checkSizes
  split_ifs with hwindow hguarded hwide
  · rw [Number.sum_of_le hwindow]
    rfl
  · rw [Number.sum_of_lt (Nat.lt_of_not_le hwindow), Number.difference_of_lt hguarded]
    rfl
  · rw [Number.sum_of_lt (Nat.lt_of_not_le hwindow),
      Number.difference_of_le (Nat.le_of_not_lt hguarded), Number.powerFrom_of_lt hwide]
    rfl
  · rw [Number.sum_of_lt (Nat.lt_of_not_le hwindow),
      Number.difference_of_le (Nat.le_of_not_lt hguarded),
      Number.powerFrom_of_le (Nat.le_of_not_lt hwide)]
    rfl

omit [LawfulBEq κ] in
theorem create_eq {capacity : Nat} {tuning : TinyLfuTuning}
    (h : create capacity tuning = .ok cache) : ∃ guardedQuota samplePeriod,
    cache = ofQuotas (windowShare capacity tuning.windowRatio)
      (capacity - windowShare capacity tuning.windowRatio) guardedQuota samplePeriod
      tuning.seed := by
  simp only [create, bind, Except.bind, pure, Except.pure, throw, throwThe] at h
  split at h
  · cases h
  split at h
  · cases h
  split_ifs at h
  split at h
  · cases h
  cases h
  exact ⟨_, _, rfl⟩

theorem valid_create {capacity : Nat} {tuning : TinyLfuTuning}
    (h : create capacity tuning = .ok cache) : cache.Valid ∧ cache.capacity = capacity := by
  obtain ⟨guardedQuota, samplePeriod, rfl⟩ := create_eq h
  have hshare : windowShare capacity tuning.windowRatio ≤ capacity := Nat.min_le_right _ _
  exact ⟨valid_ofQuotas _ _ _ _ _, Nat.add_sub_of_le hshare⟩

omit [LawfulBEq κ] in
/-- The window has room for a key as soon as there is any room. -/
theorem windowQuota_pos_of_create {capacity : Nat} {tuning : TinyLfuTuning} (hpos : 1 ≤ capacity)
    (h : create capacity tuning = .ok cache) : 1 ≤ cache.windowQuota := by
  obtain ⟨guardedQuota, samplePeriod, rfl⟩ := create_eq h
  exact Nat.le_min.2 ⟨Nat.le_max_right _ _, hpos⟩

end KeyHeat.TinyLfu

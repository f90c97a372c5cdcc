import KeyHeat.Policy.LruK
import KeyHeat.Proofs.Container.KeyCount
import KeyHeat.Proofs.Container.KeyedList

/-!
# The queues of the `k`-access policy agree with its counts

A resident key is in the history while it has fewer than `k` accesses and in the cache from then
on. The two queues share out the resident keys, and the policy stays within its capacity.
-/

namespace KeyHeat.LruK

variable {κ : Type} [BEq κ] [Hashable κ]

/-- The history holds the keys with fewer than `k` accesses, the cache the others. -/
structure Queued (counts : Std.HashMap κ Nat) (history cache : KeyedList κ) (k : Nat) : Prop where
  valid_history : history.Valid
  valid_cache : cache.Valid
  mem_history : ∀ key : κ, key ∈ history.toList ↔ ∃ count, counts[key]? = some count ∧ count < k
  mem_cache : ∀ key : κ, key ∈ cache.toList ↔ ∃ count, counts[key]? = some count ∧ k ≤ count

/-- Both queues are in order, and together no longer than the capacity. -/
structure Valid (lruK : LruK κ) : Prop where
  queued : Queued lruK.counts lruK.history lruK.cache lruK.k
  k_pos : 0 < lruK.k
  size_le : lruK.size ≤ lruK.capacity

variable {lruK : LruK κ}

/-! ## Outcomes -/

theorem settings_touch (lruK : LruK κ) (key : κ) (count : Nat) :
    (lruK.touch key count).k = lruK.k ∧ (lruK.touch key count).capacity = lruK.capacity := by
  unfold touch
  dsimp only
  split_ifs
  · split <;> exact ⟨rfl, rfl⟩
  · exact ⟨rfl, rfl⟩
  · exact ⟨rfl, rfl⟩

theorem counts_touch (lruK : LruK κ) (key : κ) (count : Nat) :
    (lruK.touch key count).counts = lruK.counts.insert key (count + 1) := by
  unfold touch
  dsimp only
  split_ifs
  · split <;> rfl
  · rfl
  · rfl

theorem settings_evict (lruK : LruK κ) :
    lruK.evict.k = lruK.k ∧ lruK.evict.capacity = lruK.capacity := by
  unfold evict
  dsimp only
  split
  · exact ⟨rfl, rfl⟩
  · split <;> exact ⟨rfl, rfl⟩

/-- The state in which a new key finds room. -/
def makeRoom (lruK : LruK κ) : LruK κ := if lruK.size ≥ lruK.capacity then lruK.evict else lruK

theorem enroll_eq (key : κ) :
    lruK.enroll key =
      if lruK.makeRoom.k = 1 then
        ⟨lruK.makeRoom.counts.insert key 1, lruK.makeRoom.history,
          lruK.makeRoom.cache.push .front key, lruK.makeRoom.k, lruK.makeRoom.capacity⟩
      else
        ⟨lruK.makeRoom.counts.insert key 1, lruK.makeRoom.history.push .front key,
          lruK.makeRoom.cache, lruK.makeRoom.k, lruK.makeRoom.capacity⟩ := rfl

theorem settings_makeRoom (lruK : LruK κ) :
    lruK.makeRoom.k = lruK.k ∧ lruK.makeRoom.capacity = lruK.capacity := by
  unfold makeRoom
  split_ifs
  · exact lruK.settings_evict
  · exact ⟨rfl, rfl⟩

theorem settings_enroll (lruK : LruK κ) (key : κ) :
    (lruK.enroll key).k = lruK.k ∧ (lruK.enroll key).capacity = lruK.capacity := by
  rw [enroll_eq]
  split_ifs <;> exact lruK.settings_makeRoom

theorem counts_enroll (lruK : LruK κ) (key : κ) :
    (lruK.enroll key).counts = lruK.makeRoom.counts.insert key 1 := by
  rw [enroll_eq]
  split_ifs <;> rfl

theorem capacity_put (key : κ) : (lruK.put key).2.capacity = lruK.capacity := by
  unfold put
  split_ifs
  · rfl
  · cases lruK.accessCount? key with
    | none => exact (lruK.settings_enroll key).2
    | some count => exact (lruK.settings_touch key count).2

theorem capacity_get (key : κ) : (lruK.get key).2.capacity = lruK.capacity := by
  unfold get
  cases lruK.accessCount? key with
  | none => rfl
  | some count => exact (lruK.settings_touch key count).2

theorem put_fst (key : κ) :
    (lruK.put key).1 = if lruK.capacity = 0 then .error .capacity else .ok () := by
  unfold put
  split_ifs
  · rfl
  · cases lruK.accessCount? key <;> rfl

theorem Valid.nodup_hotKeys (h : lruK.Valid) : lruK.hotKeys.Nodup :=
  h.queued.valid_cache.nodup_toList

/-! ## The queues -/

section Queues

variable {counts : Std.HashMap κ Nat} {history cache : KeyedList κ} {k : Nat}

theorem Queued.not_mem_cache (h : Queued counts history cache k) {key : κ}
    (hmem : key ∈ history.toList) : key ∉ cache.toList := by
  intro hcache
  obtain ⟨count, hcount, hlt⟩ := (h.mem_history key).1 hmem
  obtain ⟨count', hcount', hle⟩ := (h.mem_cache key).1 hcache
  rw [hcount] at hcount'
  cases hcount'
  omega

theorem Queued.le_of_not_mem (h : Queued counts history cache k) {key : κ} {count : Nat}
    (hget : counts[key]? = some count) (hnot : key ∉ history.toList) : k ≤ count := by
  by_contra hlt
  exact hnot ((h.mem_history key).2 ⟨count, hget, Nat.lt_of_not_le hlt⟩)

/-- A change at one key keeps the queues in order if that key ends up in the right one. -/
theorem Queued.update (h : Queued counts history cache k) {counts' : Std.HashMap κ Nat}
    {history' cache' : KeyedList κ} (key : κ) (hhistory : history'.Valid) (hcache : cache'.Valid)
    (hothers : ∀ other ≠ key, counts'[other]? = counts[other]? ∧
      (other ∈ history'.toList ↔ other ∈ history.toList) ∧
      (other ∈ cache'.toList ↔ other ∈ cache.toList))
    (hmemHistory : key ∈ history'.toList ↔ ∃ count, counts'[key]? = some count ∧ count < k)
    (hmemCache : key ∈ cache'.toList ↔ ∃ count, counts'[key]? = some count ∧ k ≤ count) :
    Queued counts' history' cache' k where
  valid_history := hhistory
  valid_cache := hcache
  mem_history other := by
    by_cases hkey : other = key
    · rw [hkey, hmemHistory]
    · obtain ⟨hcounts, hmem, -⟩ := hothers other hkey
      rw [hcounts, hmem, h.mem_history]
  mem_cache other := by
    by_cases hkey : other = key
    · rw [hkey, hmemCache]
    · obtain ⟨hcounts, -, hmem⟩ := hothers other hkey
      rw [hcounts, hmem, h.mem_cache]

variable [LawfulBEq κ]

theorem Queued.length_add (h : Queued counts history cache k) :
    history.length + cache.length = counts.size := by
  have hnodup : (history.toList ++ cache.toList).Nodup :=
    h.valid_history.nodup_toList.append h.valid_cache.nodup_toList fun _ hmem ↦
      h.not_mem_cache hmem
  have hmem (key : κ) : key ∈ history.toList ++ cache.toList ↔ key ∈ counts := by
    rw [List.mem_append, h.mem_history, h.mem_cache, mem_iff_exists_getElem?]
    constructor
    · rintro (⟨count, hcount, -⟩ | ⟨count, hcount, -⟩) <;> exact ⟨count, hcount⟩
    · rintro ⟨count, hcount⟩
      rcases Nat.lt_or_ge count k with hlt | hge
      · exact .inl ⟨count, hcount, hlt⟩
      · exact .inr ⟨count, hcount, hge⟩
  calc
    _ = (history.toList ++ cache.toList).length := by
      rw [h.valid_history.length_eq, h.valid_cache.length_eq, List.length_append]
    _ = counts.size := length_eq_size hnodup hmem

theorem Queued.erase_history (h : Queued counts history cache k) {key : κ}
    (hmem : key ∈ history.toList) :
    Queued (counts.erase key) (history.erase key) cache k := by
  apply h.update key (h.valid_history.erase key) h.valid_cache
  · intro other hne
    rw [Std.HashMap.getElem?_erase, if_neg (by simpa using hne.symm)]
    exact ⟨rfl, h.valid_history.mem_erase_of_ne hne, Iff.rfl⟩
  · simp [h.valid_history.mem_erase]
  · simp [h.not_mem_cache hmem]

theorem Queued.erase_cache (h : Queued counts history cache k) {key : κ}
    (hmem : key ∈ cache.toList) :
    Queued (counts.erase key) history (cache.erase key) k := by
  have hnot : key ∉ history.toList := fun hhistory ↦ h.not_mem_cache hhistory hmem
  apply h.update key h.valid_history (h.valid_cache.erase key)
  · intro other hne
    rw [Std.HashMap.getElem?_erase, if_neg (by simpa using hne.symm)]
    exact ⟨rfl, Iff.rfl, h.valid_cache.mem_erase_of_ne hne⟩
  · simp [hnot]
  · simp [h.valid_cache.mem_erase]

/-- A key with a count below `k` is counted on in the history, or put there. -/
theorem Queued.count_history (h : Queued counts history cache k) {key : κ} {count : Nat}
    (hlt : count < k) (hnot : key ∉ cache.toList) {history' : KeyedList κ}
    (hhistory : history'.Valid)
    (hmem : ∀ other, other ∈ history'.toList ↔ other = key ∨ other ∈ history.toList) :
    Queued (counts.insert key count) history' cache k := by
  apply h.update key hhistory h.valid_cache
  · intro other hne
    rw [Std.HashMap.getElem?_insert, if_neg (by simpa using hne.symm), hmem]
    exact ⟨rfl, or_iff_right hne, Iff.rfl⟩
  · simp [hmem, hlt]
  · simpa [hnot] using hlt

/-- A key with a count from `k` on belongs to the cache alone. -/
theorem Queued.count_cache (h : Queued counts history cache k) {key : κ} {count : Nat}
    (hle : k ≤ count) {history' cache' : KeyedList κ} (hhistory : history'.Valid)
    (hmemHistory : ∀ other, other ∈ history'.toList ↔ other ≠ key ∧ other ∈ history.toList)
    (hcache : cache'.Valid)
    (hmemCache : ∀ other, other ∈ cache'.toList ↔ other = key ∨ other ∈ cache.toList) :
    Queued (counts.insert key count) history' cache' k := by
  apply h.update key hhistory hcache
  · intro other hne
    rw [Std.HashMap.getElem?_insert, if_neg (by simpa using hne.symm), hmemHistory, hmemCache]
    exact ⟨rfl, and_iff_right hne, or_iff_right hne⟩
  · simpa [hmemHistory] using hle
  · simp [hmemCache, hle]

end Queues

/-! ## Accesses -/

variable [LawfulBEq κ]

theorem get_fst (key : κ) :
    (lruK.get key).1 = if lruK.counts.contains key then .ok () else .error .notFound := by
  rw [get, accessCount?, Std.HashMap.contains_eq_isSome_getElem?]
  cases lruK.counts[key]? <;> rfl

/-- A key that the history has is there to be taken out. -/
theorem Queued.touch_eq (h : Queued lruK.counts lruK.history lruK.cache lruK.k) (key : κ)
    (count : Nat) :
    lruK.touch key count =
      if lruK.history.contains key then
        if count + 1 ≥ lruK.k then
          ⟨lruK.counts.insert key (count + 1), lruK.history.erase key,
            lruK.cache.push .front key, lruK.k, lruK.capacity⟩
        else ⟨lruK.counts.insert key (count + 1), lruK.history, lruK.cache, lruK.k, lruK.capacity⟩
      else
        ⟨lruK.counts.insert key (count + 1), lruK.history, lruK.cache.touch .front key, lruK.k,
          lruK.capacity⟩ := by
  unfold LruK.touch
  dsimp only
  by_cases hold : lruK.history.contains key = true
  · rw [h.valid_history.remove_eq, hold]
  · rw [if_neg hold, if_neg hold]

theorem Queued.touch (h : Queued lruK.counts lruK.history lruK.cache lruK.k) {key : κ}
    {count : Nat} (hget : lruK.counts[key]? = some count) :
    Queued (lruK.touch key count).counts (lruK.touch key count).history
      (lruK.touch key count).cache lruK.k := by
  have hhistory := h.valid_history
  have hcache := h.valid_cache
  rw [h.touch_eq]
  split_ifs with hold hfull
  · exact h.count_cache hfull (hhistory.erase key) (fun other ↦ hhistory.mem_erase)
      (hcache.push .front key) fun other ↦ hcache.mem_push .front
  · rw [hhistory.contains_iff] at hold
    apply h.count_history (Nat.lt_of_not_le hfull) (h.not_mem_cache hold) hhistory
    intro other
    exact ⟨.inr, fun hmem ↦ hmem.elim (fun heq ↦ heq ▸ hold) id⟩
  · rw [hhistory.contains_iff] at hold
    have hle := h.le_of_not_mem hget hold
    have hin := (h.mem_cache key).2 ⟨count, hget, hle⟩
    apply h.count_cache (Nat.le_succ_of_le hle) hhistory _ (hcache.touch .front key)
    · intro other
      rw [hcache.mem_touch]
      exact ⟨.inr, fun hmem ↦ hmem.elim (fun heq ↦ heq ▸ hin) id⟩
    · intro other
      exact ⟨fun hmem ↦ ⟨fun heq ↦ hold (heq ▸ hmem), hmem⟩, fun hmem ↦ hmem.2⟩

theorem Valid.touch (h : lruK.Valid) {key : κ} {count : Nat}
    (hget : lruK.counts[key]? = some count) : (lruK.touch key count).Valid := by
  obtain ⟨hk, hcapacity⟩ := lruK.settings_touch key count
  have hqueued := h.queued.touch hget
  have hpos := h.k_pos
  have hle : (lruK.touch key count).size ≤ lruK.capacity := by
    rw [size, counts_touch, size_insert_of_getElem? hget]
    exact h.size_le
  rw [← hk] at hqueued hpos
  rw [← hcapacity] at hle
  exact ⟨hqueued, hpos, hle⟩

/-- What an eviction does: it takes away the last key of the history, or the last key of the cache
if the history is empty. -/
inductive Evicted (lruK : LruK κ) (victim : κ) : LruK κ → Prop
  | history (hlast : lruK.history.toList.getLast? = some victim) :
    Evicted lruK victim ⟨lruK.counts.erase victim, lruK.history.erase victim, lruK.cache, lruK.k,
      lruK.capacity⟩
  | cache (hempty : lruK.history.toList = []) (hlast : lruK.cache.toList.getLast? = some victim) :
    Evicted lruK victim ⟨lruK.counts.erase victim, lruK.history, lruK.cache.erase victim, lruK.k,
      lruK.capacity⟩

theorem Queued.exists_evicted (h : Queued lruK.counts lruK.history lruK.cache lruK.k)
    (hne : lruK.size ≠ 0) : ∃ victim, Evicted lruK victim lruK.evict := by
  unfold evict
  dsimp only
  rw [h.valid_history.pop_eq, h.valid_history.peek?_back]
  cases hhistory : lruK.history.toList.getLast? with
  | some victim => exact ⟨victim, .history hhistory⟩
  | none =>
    have hempty := List.getLast?_eq_none_iff.1 hhistory
    dsimp only
    rw [h.valid_cache.pop_eq, h.valid_cache.peek?_back]
    cases hcache : lruK.cache.toList.getLast? with
    | some victim => exact ⟨victim, .cache hempty hcache⟩
    | none =>
      have hlength := h.length_add
      rw [h.valid_history.length_eq, h.valid_cache.length_eq, hempty,
        List.getLast?_eq_none_iff.1 hcache] at hlength
      exact absurd hlength.symm hne

omit [LawfulBEq κ] in
theorem Evicted.counts_eq {victim : κ} {after : LruK κ} (h : Evicted lruK victim after) :
    after.counts = lruK.counts.erase victim := by
  cases h <;> rfl

omit [LawfulBEq κ] in
theorem Queued.exists_count (h : Queued lruK.counts lruK.history lruK.cache lruK.k) {victim : κ}
    {after : LruK κ} (hevicted : Evicted lruK victim after) :
    ∃ count, lruK.counts[victim]? = some count := by
  cases hevicted with
  | history hlast =>
    obtain ⟨count, hcount, -⟩ := (h.mem_history victim).1 (List.mem_of_getLast? hlast)
    exact ⟨count, hcount⟩
  | cache hempty hlast =>
    obtain ⟨count, hcount, -⟩ := (h.mem_cache victim).1 (List.mem_of_getLast? hlast)
    exact ⟨count, hcount⟩

/-- An eviction removes one key. -/
theorem Valid.evict (h : lruK.Valid) (hne : lruK.size ≠ 0) :
    Queued lruK.evict.counts lruK.evict.history lruK.evict.cache lruK.k ∧
      lruK.evict.size = lruK.size - 1 ∧
      ∀ key : κ, lruK.counts[key]? = none → lruK.evict.counts[key]? = none := by
  obtain ⟨victim, hevicted⟩ := h.queued.exists_evicted hne
  obtain ⟨count, hcount⟩ := h.queued.exists_count hevicted
  generalize lruK.evict = after at hevicted
  refine ⟨?_, ?_, ?_⟩
  · cases hevicted with
    | history hlast => exact h.queued.erase_history (List.mem_of_getLast? hlast)
    | cache hempty hlast => exact h.queued.erase_cache (List.mem_of_getLast? hlast)
  · rw [size, hevicted.counts_eq]
    exact size_erase_of_getElem? hcount
  · intro key hnot
    rw [hevicted.counts_eq, Std.HashMap.getElem?_erase, hnot, ite_self]

theorem Valid.makeRoom (h : lruK.Valid) (hpos : lruK.capacity ≠ 0) :
    Queued lruK.makeRoom.counts lruK.makeRoom.history lruK.makeRoom.cache lruK.k ∧
      lruK.makeRoom.size < lruK.capacity ∧
      ∀ key : κ, lruK.counts[key]? = none → lruK.makeRoom.counts[key]? = none := by
  have hsize := h.size_le
  unfold LruK.makeRoom
  split_ifs with hfull
  · obtain ⟨hqueued, hevict, hkept⟩ := h.evict (by omega)
    exact ⟨hqueued, by omega, hkept⟩
  · exact ⟨h.queued, Nat.lt_of_not_le hfull, fun key hnot ↦ hnot⟩

theorem Valid.enroll (h : lruK.Valid) (hpos : lruK.capacity ≠ 0) {key : κ}
    (hnot : lruK.counts[key]? = none) : (lruK.enroll key).Valid := by
  obtain ⟨hqueued, hsize, hkept⟩ := h.makeRoom hpos
  obtain ⟨hk, hcapacity⟩ := lruK.settings_enroll key
  obtain ⟨hroom, -⟩ := lruK.settings_makeRoom
  have hkPos := h.k_pos
  have hfresh := hkept key hnot
  have hhistory : key ∉ lruK.makeRoom.history.toList := by simp [hqueued.mem_history, hfresh]
  have hcache : key ∉ lruK.makeRoom.cache.toList := by simp [hqueued.mem_cache, hfresh]
  have henrolled : Queued (lruK.enroll key).counts (lruK.enroll key).history
      (lruK.enroll key).cache lruK.k := by
    rw [enroll_eq]
    split_ifs with hone
    · apply hqueued.count_cache (by omega) hqueued.valid_history _
        (hqueued.valid_cache.push .front key) fun other ↦ hqueued.valid_cache.mem_push .front
      intro other
      exact ⟨fun hmem ↦ ⟨ne_of_mem_of_not_mem hmem hhistory, hmem⟩, fun hmem ↦ hmem.2⟩
    · exact hqueued.count_history (by omega) hcache (hqueued.valid_history.push .front key)
        fun other ↦ hqueued.valid_history.mem_push .front
  have hle : (lruK.enroll key).size ≤ (lruK.enroll key).capacity := by
    calc
      _ = (lruK.makeRoom.counts.insert key 1).size := by rw [size, counts_enroll]
      _ ≤ lruK.makeRoom.size + 1 := Std.HashMap.size_insert_le
      _ ≤ lruK.capacity := hsize
      _ = _ := hcapacity.symm
  rw [← hk] at henrolled hkPos
  exact ⟨henrolled, hkPos, hle⟩

theorem Valid.put (h : lruK.Valid) (key : κ) : (lruK.put key).2.Valid := by
  unfold LruK.put accessCount?
  split_ifs with hzero
  · exact h
  · cases hget : lruK.counts[key]? with
    | none => exact h.enroll hzero hget
    | some count => exact h.touch hget

theorem Valid.get (h : lruK.Valid) (key : κ) : (lruK.get key).2.Valid := by
  unfold LruK.get accessCount?
  cases hget : lruK.counts[key]? with
  | none => exact h
  | some count => exact h.touch hget

omit [LawfulBEq κ] in
theorem create_eq {k capacity : Nat} (h : create k capacity = .ok lruK) :
    k ≠ 0 ∧ lruK = ⟨∅, .empty, .empty, k, capacity⟩ := by
  unfold create at h
  split_ifs at h with hzero
  cases h
  exact ⟨hzero, rfl⟩

theorem valid_create {k capacity : Nat} (h : create k capacity = .ok lruK) :
    lruK.Valid ∧ lruK.capacity = capacity := by
  obtain ⟨hzero, rfl⟩ := create_eq h
  have hqueued : Queued (∅ : Std.HashMap κ Nat) .empty .empty k :=
    ⟨KeyedList.valid_empty, KeyedList.valid_empty, by simp, by simp⟩
  exact ⟨⟨hqueued, Nat.pos_of_ne_zero hzero, Nat.zero_le _⟩, rfl⟩

/-! ## Reports -/

/-- A resident key is linked in the queue that its count assigns to it. -/
theorem Queued.isMisplaced_eq (h : Queued lruK.counts lruK.history lruK.cache lruK.k) {key : κ}
    {count : Nat} (hget : lruK.counts[key]? = some count) :
    lruK.isMisplaced key count = false := by
  have hhistory : lruK.history.contains key = true ↔ _ := h.valid_history.contains_iff
  have hcache : lruK.cache.contains key = true ↔ _ := h.valid_cache.contains_iff
  rw [h.mem_history, hget] at hhistory
  rw [h.mem_cache, hget] at hcache
  simp only [Option.some.injEq, exists_eq_left'] at hhistory hcache
  unfold isMisplaced
  rcases Nat.lt_or_ge count lruK.k with hlt | hge
  · simp [h.valid_history.isLinked_eq, hhistory.2 hlt, hlt]
  · have hnot : lruK.history.contains key = false := by
      rw [← Bool.not_eq_true, hhistory]
      exact Nat.not_lt.2 hge
    simp [h.valid_cache.isLinked_eq, hcache.2 hge, hnot, hge]

theorem Queued.find?_misplaced (h : Queued lruK.counts lruK.history lruK.cache lruK.k) :
    (lruK.counts.toList.find? fun (key, count) ↦ lruK.isMisplaced key count) = none := by
  apply find?_toList_eq_none
  intro key count hget
  exact h.isMisplaced_eq hget

theorem Valid.check_eq (h : lruK.Valid) : lruK.check = .ok () := by
  have hqueued := h.queued
  have hlength : lruK.history.length + lruK.cache.length = lruK.size := hqueued.length_add
  rw [check, hqueued.valid_history.check_eq, hqueued.valid_cache.check_eq, hlength,
    hqueued.find?_misplaced]
  simp [Nat.not_lt.2 h.size_le, bind, Except.bind, pure, Except.pure]

theorem Valid.mem_hotKeys (h : lruK.Valid) {key : κ} :
    key ∈ lruK.hotKeys ↔ lruK.isHot key = true := h.queued.valid_cache.contains_iff.symm

end KeyHeat.LruK

import KeyHeat.Proofs.Policy.Lru.History
import KeyHeat.Proofs.Policy.LruK.History

/-!
# With one access required, the policy is least recently used

For `k = 1` no key ever waits: the history stays empty, and the cache is, link by link, the list of
a least-recently-used separator that serves the same calls. So the two cannot be told apart.
-/

namespace KeyHeat.LruK

variable {κ : Type} [BEq κ] [Hashable κ] {lruK : LruK κ} {lru : Lru κ} {key : κ}

/-- No key waits, and the cache is the list of the other separator. -/
structure Mirrors (lruK : LruK κ) (lru : Lru κ) : Prop where
  valid : lruK.Valid
  k_eq : lruK.k = 1
  history_eq : lruK.history = .empty
  cache_eq : lruK.cache = lru.keys
  capacity_eq : lruK.capacity = lru.capacity

/-- What two separators answer when they are asked for their hot keys. -/
structure SameAnswers (lruK : LruK κ) (lru : Lru κ) : Prop where
  hotKeys_eq : lruK.hotKeys = lru.hotKeys
  isHot_eq : ∀ key, lruK.isHot key = lru.isHot key
  size_eq : lruK.size = lru.size

variable [LawfulBEq κ]

theorem Mirrors.size_eq (h : Mirrors lruK lru) : lruK.size = lru.size := by
  have hlength := h.valid.queued.length_add
  rw [h.history_eq, h.cache_eq] at hlength
  calc
    lruK.size = (KeyedList.empty : KeyedList κ).length + lru.keys.length := hlength.symm
    _ = lru.size := Nat.zero_add _

theorem Mirrors.valid_lru (h : Mirrors lruK lru) : lru.Valid where
  keys := h.cache_eq ▸ h.valid.queued.valid_cache
  size_le := by
    rw [← h.size_eq, ← h.capacity_eq]
    exact h.valid.size_le

theorem Mirrors.sameAnswers (h : Mirrors lruK lru) : SameAnswers lruK lru where
  hotKeys_eq := congrArg KeyedList.toList h.cache_eq
  isHot_eq key := congrArg (·.contains key) h.cache_eq
  size_eq := h.size_eq

/-- All resident keys are in the cache. -/
theorem Mirrors.contains_eq (h : Mirrors lruK lru) (key : κ) :
    lru.keys.contains key = (lruK.counts[key]?).isSome := by
  have hqueued := h.valid.queued
  rw [Bool.eq_iff_iff, ← h.cache_eq, hqueued.valid_cache.contains_iff, hqueued.mem_cache,
    Option.isSome_iff_exists]
  apply exists_congr
  intro count
  apply and_iff_left_of_imp
  intro hget
  apply hqueued.le_of_not_mem hget
  rw [h.history_eq]
  exact List.not_mem_nil

theorem Mirrors.touch (h : Mirrors lruK lru) {count : Nat}
    (hget : lruK.counts[key]? = some count) : Mirrors (lruK.touch key count) (lru.touch key) := by
  have hvalid := h.valid.touch hget
  have hold : ¬lruK.history.contains key = true := by
    rw [h.valid.queued.valid_history.contains_iff, h.history_eq]
    exact List.not_mem_nil
  rw [h.valid.queued.touch_eq, if_neg hold] at hvalid ⊢
  refine ⟨hvalid, h.k_eq, h.history_eq, ?_, h.capacity_eq⟩
  exact congrArg (·.touch .front key) h.cache_eq

omit [LawfulBEq κ] in
/-- Both separators give up the last key of the list. -/
theorem Mirrors.evict (h : Mirrors lruK lru) :
    lruK.evict.history = .empty ∧ lruK.evict.cache = (lru.keys.pop .back).2 := by
  unfold LruK.evict
  dsimp only
  rw [h.history_eq, h.cache_eq]
  have hnone : (KeyedList.empty : KeyedList κ).pop .back = (none, .empty) := rfl
  rw [hnone]
  generalize lru.keys.pop .back = popped
  obtain ⟨victim?, rest⟩ := popped
  cases victim? with
  | none => exact ⟨rfl, rfl⟩
  | some victim => exact ⟨rfl, rfl⟩

theorem Mirrors.makeRoom (h : Mirrors lruK lru) :
    lruK.makeRoom.history = .empty ∧ lruK.makeRoom.cache = lru.makeRoom := by
  unfold LruK.makeRoom Lru.makeRoom
  rw [h.size_eq, h.capacity_eq]
  change _ ∧ _ = if lru.size ≥ lru.capacity then _ else _
  split_ifs
  · exact h.evict
  · exact ⟨h.history_eq, h.cache_eq⟩

theorem Mirrors.enroll (h : Mirrors lruK lru) (hpos : lruK.capacity ≠ 0)
    (hnew : lruK.counts[key]? = none) : Mirrors (lruK.enroll key) (lru.enroll key) := by
  have hvalid := h.valid.enroll hpos hnew
  obtain ⟨hk, hcapacity⟩ := lruK.settings_makeRoom
  obtain ⟨hhistory, hcache⟩ := h.makeRoom
  rw [enroll_eq, if_pos (hk.trans h.k_eq)] at hvalid ⊢
  exact ⟨hvalid, hk.trans h.k_eq, hhistory, congrArg (·.push .front key) hcache,
    hcapacity.trans h.capacity_eq⟩

/-- A call has the same outcome for both separators and leaves them alike. -/
theorem Mirrors.serve (h : Mirrors lruK lru) (call : Call κ) :
    (LruK.serve lruK call).1 = (Lru.serve lru call).1 ∧
      Mirrors (LruK.serve lruK call).2 (Lru.serve lru call).2 := by
  cases call with
  | put key =>
    simp only [LruK.serve, Lru.serve, LruK.put, h.valid_lru.put_eq, accessCount?,
      ← h.capacity_eq, Lru.isHot, h.contains_eq key]
    by_cases hzero : lruK.capacity = 0
    · rw [if_pos hzero, if_pos hzero]
      exact ⟨rfl, h⟩
    · rw [if_neg hzero, if_neg hzero]
      cases hget : lruK.counts[key]? with
      | none => exact ⟨rfl, h.enroll hzero hget⟩
      | some count => exact ⟨rfl, h.touch hget⟩
  | get key =>
    simp only [LruK.serve, Lru.serve, LruK.get, h.valid_lru.get_eq, accessCount?, Lru.isHot,
      h.contains_eq key]
    cases hget : lruK.counts[key]? with
    | none => exact ⟨rfl, h⟩
    | some count => exact ⟨rfl, h.touch hget⟩

theorem Mirrors.run (h : Mirrors lruK lru) (calls : List (Call κ)) :
    LruK.serve.outcomes lruK calls = Lru.serve.outcomes lru calls ∧
      Mirrors (LruK.serve.run lruK calls) (Lru.serve.run lru calls) := by
  induction calls generalizing lruK lru with
  | nil => exact ⟨rfl, h⟩
  | cons call calls ih =>
    obtain ⟨hsame, hnext⟩ := h.serve call
    obtain ⟨houtcomes, hrun⟩ := ih hnext
    refine ⟨?_, hrun⟩
    rw [Service.outcomes_cons, Service.outcomes_cons, hsame, houtcomes]

theorem mirrors_create {capacity : Nat} {start : LruK κ} (h : create 1 capacity = .ok start) :
    Mirrors start (.empty capacity) := by
  have hvalid := (valid_create h).1
  obtain ⟨-, rfl⟩ := create_eq h
  exact ⟨hvalid, rfl, rfl, rfl, rfl⟩

/-- With any capacity a separator that requires one access has the outcomes of a least-recently-used
one, call by call, and the same answers after every run. -/
theorem sameAnswers_of_run (capacity : Nat) :
    ∃ start : LruK κ, create 1 capacity = .ok start ∧ ∀ calls : List (Call κ),
      serve.outcomes start calls = Lru.serve.outcomes (.empty capacity) calls ∧
        SameAnswers (serve.run start calls) (Lru.serve.run (.empty capacity) calls) := by
  have hstart : create 1 capacity = .ok (⟨∅, .empty, .empty, 1, capacity⟩ : LruK κ) := rfl
  refine ⟨_, hstart, ?_⟩
  intro calls
  obtain ⟨houtcomes, hrun⟩ := (mirrors_create hstart).run calls
  exact ⟨houtcomes, hrun.sameAnswers⟩

/-- Key 1 leaves for key 3 in both separators, and reading it fails in both. -/
theorem sameAnswers_of_run_two :
    ∃ start : LruK Nat, create 1 2 = .ok start ∧
      serve.outcomes start [.put 1, .put 2, .put 3, .get 1] =
        Lru.serve.outcomes (.empty 2) [.put 1, .put 2, .put 3, .get 1] ∧
      SameAnswers (serve.run start [.put 1, .put 2, .put 3, .get 1])
        (Lru.serve.run (.empty 2) [.put 1, .put 2, .put 3, .get 1]) := by
  obtain ⟨start, hstart, hruns⟩ := sameAnswers_of_run (κ := Nat) 2
  exact ⟨start, hstart, hruns _⟩

end KeyHeat.LruK

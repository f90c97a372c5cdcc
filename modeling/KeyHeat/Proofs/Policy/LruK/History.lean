import KeyHeat.Proofs.Policy.Accesses
import KeyHeat.Proofs.Policy.LruK

/-!
# The `k`-access policy keeps exact books

In any run the count of a resident key is the number of accesses to it since its admission. The
history is in the order of admission, which accesses below the `k`-th do not change, and the cache
is in the order of recency. Hence a new key in a full separator takes the place of the key that
waits longest for its `k`-th access, or of the least recent hot key if none waits.
-/

namespace KeyHeat.LruK

variable {κ : Type} [BEq κ] [Hashable κ] {lruK : LruK κ} {key : κ} {admissions log : List κ}

/-- The outcome of a call and the state that it leaves. -/
def serve : Service (LruK κ) κ
  | lruK, .put key => lruK.put key
  | lruK, .get key => lruK.get key

def isResident (lruK : LruK κ) (key : κ) : Bool := (lruK.accessCount? key).isSome

theorem isResident_iff : lruK.isResident key = true ↔ ∃ count, lruK.counts[key]? = some count :=
  Option.isSome_iff_exists

theorem isResident_eq_false_iff : lruK.isResident key = false ↔ lruK.counts[key]? = none :=
  Option.isSome_eq_false_iff.trans Option.isNone_iff_eq_none

/-- What a call can do: it touches a resident key, admits a new one, or misses. -/
inductive Served (lruK : LruK κ) (call : Call κ) : Access × LruK κ → Prop
  | touched (count : Nat) (hget : lruK.counts[call.key]? = some count) :
    Served lruK call (.ok (), lruK.touch call.key count)
  | enrolled (hput : call = .put call.key) (hnew : lruK.counts[call.key]? = none) :
    Served lruK call (.ok (), lruK.enroll call.key)
  | missed (hget : call = .get call.key) (hnew : lruK.counts[call.key]? = none) :
    Served lruK call (.error .notFound, lruK)

theorem served (hpos : lruK.capacity ≠ 0) (call : Call κ) :
    Served lruK call (serve lruK call) := by
  cases call with
  | put key =>
    simp only [serve, put, if_neg hpos, accessCount?]
    cases hget : lruK.counts[key]? with
    | none => exact .enrolled rfl hget
    | some count => exact .touched count hget
  | get key =>
    simp only [serve, get, accessCount?]
    cases hget : lruK.counts[key]? with
    | none => exact .missed rfl hget
    | some count => exact .touched count hget

theorem settings_serve (hpos : lruK.capacity ≠ 0) (call : Call κ) :
    (serve lruK call).2.k = lruK.k ∧ (serve lruK call).2.capacity = lruK.capacity := by
  have hserved := served hpos call
  generalize serve lruK call = outcome at hserved ⊢
  cases hserved with
  | touched count hget => exact lruK.settings_touch call.key count
  | enrolled hput hnew => exact lruK.settings_enroll call.key
  | missed hget hnew => exact ⟨rfl, rfl⟩

theorem settings_run (hpos : lruK.capacity ≠ 0) (calls : List (Call κ)) :
    (serve.run lruK calls).k = lruK.k ∧ (serve.run lruK calls).capacity = lruK.capacity := by
  apply serve.run_invariant
    (P := fun state ↦ state.k = lruK.k ∧ state.capacity = lruK.capacity) _ ⟨rfl, rfl⟩
  rintro state call ⟨hk, hcapacity⟩
  have hpos' : state.capacity ≠ 0 := by rwa [hcapacity]
  have hsettings := settings_serve hpos' call
  exact ⟨hsettings.1.trans hk, hsettings.2.trans hcapacity⟩

variable [LawfulBEq κ]

/-! ## Counts -/

/-- Room is made by taking counts away. -/
theorem Valid.getElem?_of_makeRoom (h : lruK.Valid) (hpos : lruK.capacity ≠ 0) {count : Nat}
    (hget : lruK.makeRoom.counts[key]? = some count) : lruK.counts[key]? = some count := by
  unfold LruK.makeRoom at hget
  split_ifs at hget with hfull
  · obtain ⟨victim, hevicted⟩ := h.queued.exists_evicted (by omega)
    rw [hevicted.counts_eq, Std.HashMap.getElem?_erase] at hget
    split_ifs at hget
    exact hget
  · exact hget

theorem Valid.tallied (h : lruK.Valid) (hpos : lruK.capacity ≠ 0) (call : Call κ) :
    Tallied lruK.counts call.key (LruK.serve lruK call).1 (LruK.serve lruK call).2.counts := by
  have hserved := served hpos call
  generalize LruK.serve lruK call = outcome at hserved ⊢
  cases hserved with
  | touched count hget =>
    rw [counts_touch]
    exact .counted count hget
  | enrolled hput hnew =>
    rw [counts_enroll]
    exact .admitted _ hnew fun other count ↦ h.getElem?_of_makeRoom hpos
  | missed hget hnew => exact .failed .notFound

theorem Valid.serve (h : lruK.Valid) (call : Call κ) : (LruK.serve lruK call).2.Valid := by
  cases call with
  | put key => exact h.put key
  | get key => exact h.get key

/-- The count of a resident key is the number of accesses in its tenure. -/
theorem exists_tenure_of_run {start : LruK κ} (h : start.Valid) (hpos : start.capacity ≠ 0)
    (hempty : ∀ key, start.accessCount? key = none) (calls : List (Call κ))
    (hresident : (serve.run start calls).isResident key = true) :
    ∃ before stay, calls = before ++ stay ∧
      serve.Tenure (·.isResident key = true) start before stay ∧
      (serve.run start calls).accessCount? key =
        some ((serve.accesses (serve.run start before) stay).count key) := by
  obtain ⟨count, hcount⟩ := isResident_iff.1 hresident
  have hcounted (state : LruK κ) (key : κ) :
      state.isResident key = true ↔ ∃ count, state.accessCount? key = some count := isResident_iff
  have hstep (state : LruK κ) (call : Call κ) (hstate : state.Valid ∧ state.capacity ≠ 0) :
      (serve state call).2.Valid ∧ (serve state call).2.capacity ≠ 0 := by
    refine ⟨hstate.1.serve call, ?_⟩
    rw [(settings_serve hstate.2 call).2]
    exact hstate.2
  have htally (state : LruK κ) (call : Call κ) (hstate : state.Valid ∧ state.capacity ≠ 0)
      (key : κ) : ∀ count ∈ (serve state call).2.accessCount? key,
        count = (state.accessCount? key).getD 0 + (serve.accessed state call).count key := by
    intro count hafter
    exact (hstate.1.tallied hstate.2 call).count_eq hafter
  obtain ⟨before, stay, hsplit, htenure, heq⟩ :=
    Service.exists_tenure hcounted hstep htally ⟨h, hpos⟩ hempty calls hcount
  exact ⟨before, stay, hsplit, htenure, heq ▸ hcount⟩

/-! ## The order of the queues -/

/-- The history is in the order of admission, the cache in the order of recency. -/
structure Aged (admissions log : List κ) (lruK : LruK κ) : Prop where
  valid : lruK.Valid
  history : ByRecency admissions lruK.history.toList
  cache : ByRecency log lruK.cache.toList

theorem Aged.touch (h : Aged admissions log lruK) {count : Nat}
    (hget : lruK.counts[key]? = some count) :
    Aged admissions (key :: log) (lruK.touch key count) := by
  have hqueued := h.valid.queued
  refine ⟨h.valid.touch hget, ?_, ?_⟩
  · rw [hqueued.touch_eq]
    split_ifs
    · rw [hqueued.valid_history.toList_erase]
      exact h.history.sublist List.erase_sublist
    · exact h.history
    · exact h.history
  · rw [hqueued.touch_eq]
    split_ifs with hold
    · have hnot := hqueued.not_mem_cache (hqueued.valid_history.contains_iff.1 hold)
      rw [hqueued.valid_cache.toList_push_of_not_mem .front hnot]
      exact h.cache.log_front hnot
    · exact h.cache.log_other (hqueued.not_mem_cache (hqueued.valid_history.contains_iff.1 hold))
    · rw [hqueued.valid_history.contains_iff] at hold
      have hmem := (hqueued.mem_cache key).2 ⟨count, hget, hqueued.le_of_not_mem hget hold⟩
      rw [hqueued.valid_cache.toList_touch .front hmem]
      apply (h.cache.sublist List.erase_sublist).log_front
      exact hqueued.valid_cache.nodup_toList.not_mem_erase

theorem Aged.makeRoom (h : Aged admissions log lruK) (hpos : lruK.capacity ≠ 0) :
    ByRecency admissions lruK.makeRoom.history.toList ∧
      ByRecency log lruK.makeRoom.cache.toList := by
  have hqueued := h.valid.queued
  unfold LruK.makeRoom
  split_ifs with hfull
  · obtain ⟨victim, hevicted⟩ := hqueued.exists_evicted (by omega)
    generalize lruK.evict = after at hevicted ⊢
    cases hevicted with
    | history hlast =>
      refine ⟨?_, h.cache⟩
      rw [hqueued.valid_history.toList_erase]
      exact h.history.sublist List.erase_sublist
    | cache hempty hlast =>
      refine ⟨h.history, ?_⟩
      rw [hqueued.valid_cache.toList_erase]
      exact h.cache.sublist List.erase_sublist
  · exact ⟨h.history, h.cache⟩

theorem Aged.enroll (h : Aged admissions log lruK) (hpos : lruK.capacity ≠ 0)
    (hnew : lruK.counts[key]? = none) :
    Aged (key :: admissions) (key :: log) (lruK.enroll key) := by
  obtain ⟨hqueued, -, hkept⟩ := h.valid.makeRoom hpos
  obtain ⟨hhistory, hcache⟩ := h.makeRoom hpos
  have hfresh := hkept key hnew
  have hnotHistory : key ∉ lruK.makeRoom.history.toList := by simp [hqueued.mem_history, hfresh]
  have hnotCache : key ∉ lruK.makeRoom.cache.toList := by simp [hqueued.mem_cache, hfresh]
  refine ⟨h.valid.enroll hpos hnew, ?_, ?_⟩
  · rw [enroll_eq]
    split_ifs
    · exact hhistory.log_other hnotHistory
    · rw [hqueued.valid_history.toList_push_of_not_mem .front hnotHistory]
      exact hhistory.log_front hnotHistory
  · rw [enroll_eq]
    split_ifs
    · rw [hqueued.valid_cache.toList_push_of_not_mem .front hnotCache]
      exact hcache.log_front hnotCache
    · exact hcache.log_other hnotCache

theorem Aged.serve (h : Aged admissions log lruK) (hpos : lruK.capacity ≠ 0) (call : Call κ) :
    Aged ((LruK.serve.admitted isResident lruK call).reverse ++ admissions)
      ((LruK.serve.accessed lruK call).reverse ++ log) (LruK.serve lruK call).2 := by
  have hserved := served hpos call
  rw [Service.admitted, Service.accessed]
  generalize LruK.serve lruK call = outcome at hserved ⊢
  cases hserved with
  | touched count hget =>
    rw [if_pos (isResident_iff.2 ⟨count, hget⟩)]
    exact h.touch hget
  | enrolled hput hnew =>
    rw [if_neg (Bool.eq_false_iff.1 (isResident_eq_false_iff.2 hnew))]
    exact h.enroll hpos hnew
  | missed hget hnew =>
    rw [if_neg (Bool.eq_false_iff.1 (isResident_eq_false_iff.2 hnew))]
    exact h

theorem Aged.run {start : LruK κ} (h : Aged [] [] start) (hpos : start.capacity ≠ 0)
    (calls : List (Call κ)) :
    Aged (LruK.serve.admissions isResident start calls).reverse
      (LruK.serve.accesses start calls).reverse (LruK.serve.run start calls) := by
  induction calls using List.reverseRecOn with
  | nil => exact h
  | append_singleton calls call ih =>
    have hpos' : (LruK.serve.run start calls).capacity ≠ 0 := by rwa [(settings_run hpos calls).2]
    rw [Service.run_concat, Service.accesses_concat, Service.admissions, Service.collect_concat,
      List.reverse_append, List.reverse_append]
    exact ih.serve hpos' call

/-! ## Evictions -/

/-- A resident key is waiting until it has been accessed `k` times. -/
def Waits (k : Nat) (lruK : LruK κ) (key : κ) : Prop :=
  ∃ count, lruK.accessCount? key = some count ∧ count < k

/-- The key that a full separator gives up for a new one: of those that wait the one admitted
first, and the least recent hot key if none waits. -/
inductive Expendable (k : Nat) (admissions log : List κ) (lruK : LruK κ) (victim : κ) : Prop
  | waiting (hwaits : Waits k lruK victim)
    (hfirst : ∀ other, Waits k lruK other → other ≠ victim →
      admissions.idxOf other < admissions.idxOf victim)
  | hot (hnone : ∀ other, ¬Waits k lruK other) (hhot : lruK.isHot victim = true)
    (hleast : ∀ other, lruK.isHot other = true → other ≠ victim →
      log.idxOf other < log.idxOf victim)

theorem Aged.expendable (h : Aged admissions log lruK) {victim : κ} {after : LruK κ}
    (hevicted : Evicted lruK victim after) :
    Expendable lruK.k admissions log lruK victim := by
  have hqueued := h.valid.queued
  cases hevicted with
  | history hlast =>
    apply Expendable.waiting
    · exact (hqueued.mem_history victim).1 (List.mem_of_getLast? hlast)
    · intro other hother hne
      exact h.history.lt_getLast hlast ((hqueued.mem_history other).2 hother) hne
  | cache hempty hlast =>
    apply Expendable.hot
    · intro other hother
      have hmem := (hqueued.mem_history other).2 hother
      rw [hempty] at hmem
      cases hmem
    · exact hqueued.valid_cache.contains_iff.2 (List.mem_of_getLast? hlast)
    · intro other hother hne
      exact h.cache.lt_getLast hlast (hqueued.valid_cache.contains_iff.1 hother) hne

/-- A new key takes the place of the expendable one. -/
theorem Aged.put_of_full (h : Aged admissions log lruK) (hpos : lruK.capacity ≠ 0)
    (hnew : lruK.isResident key = false) (hfull : lruK.size = lruK.capacity) :
    ∃ victim, lruK.isResident victim = true ∧ Expendable lruK.k admissions log lruK victim ∧
      ∀ other, (lruK.put key).2.isResident other = true ↔
        other = key ∨ lruK.isResident other = true ∧ other ≠ victim := by
  obtain ⟨victim, hevicted⟩ := h.valid.queued.exists_evicted (by rwa [hfull])
  refine ⟨victim, isResident_iff.2 (h.valid.queued.exists_count hevicted),
    h.expendable hevicted, ?_⟩
  intro other
  have hput : (lruK.put key).2.counts = (lruK.counts.erase victim).insert key 1 := by
    have hroom : lruK.makeRoom = lruK.evict := if_pos (Nat.le_of_eq hfull.symm)
    simp only [put, if_neg hpos, accessCount?, isResident_eq_false_iff.1 hnew]
    rw [counts_enroll, hroom, hevicted.counts_eq]
  rw [isResident_iff, hput, isResident_iff, ← mem_iff_exists_getElem?, ← mem_iff_exists_getElem?,
    Std.HashMap.mem_insert, Std.HashMap.mem_erase, beq_iff_eq, beq_eq_false_iff_ne,
    eq_comm (a := key), ne_comm (a := victim), and_comm (a := other ≠ victim)]

/-- A key leaves only for a new key, and only if the separator is full. -/
theorem Valid.full_of_leaves (h : lruK.Valid) (hpos : lruK.capacity ≠ 0) {call : Call κ}
    {other : κ} (hother : lruK.isResident other = true)
    (hleaves : (LruK.serve lruK call).2.isResident other = false) :
    ∃ key, call = .put key ∧ lruK.isResident key = false ∧ lruK.size = lruK.capacity := by
  obtain ⟨count, hcount⟩ := isResident_iff.1 hother
  have hserved := served hpos call
  generalize LruK.serve lruK call = outcome at hserved hleaves
  rw [isResident_eq_false_iff] at hleaves
  cases hserved with
  | touched earlier hget =>
    rw [counts_touch, Std.HashMap.getElem?_insert, hcount] at hleaves
    split_ifs at hleaves
  | enrolled hput hnew =>
    refine ⟨call.key, hput, isResident_eq_false_iff.2 hnew, ?_⟩
    by_contra hroom
    have hsame : lruK.makeRoom = lruK := if_neg (by have := h.size_le; omega)
    rw [counts_enroll, hsame, Std.HashMap.getElem?_insert, hcount] at hleaves
    split_ifs at hleaves
  | missed hget hnew =>
    rw [hcount] at hleaves
    cases hleaves

/-! ## The books -/

theorem Valid.isHot_iff (h : lruK.Valid) :
    lruK.isHot key = true ↔ ∃ count, lruK.accessCount? key = some count ∧ lruK.k ≤ count :=
  h.queued.valid_cache.contains_iff.trans (h.queued.mem_cache key)

/-- What holds after some calls. The count of a resident key is the number of accesses in its
tenure; a key is hot from the `k`-th of them on; the hot keys are listed by their latest accesses;
a put of a new key in a full separator removes the expendable key and no other; and no other call
removes a key. -/
structure Accounts (k capacity : Nat) (start : LruK κ) (calls : List (Call κ))
    (lruK : LruK κ) : Prop where
  accessCount?_eq : ∀ key, lruK.isResident key = true → ∃ before stay, calls = before ++ stay ∧
    LruK.serve.Tenure (·.isResident key = true) start before stay ∧
    lruK.accessCount? key =
      some ((LruK.serve.accesses (LruK.serve.run start before) stay).count key)
  isHot_iff : ∀ key, lruK.isHot key = true ↔
    ∃ count, lruK.accessCount? key = some count ∧ k ≤ count
  nodup_hotKeys : lruK.hotKeys.Nodup
  mem_hotKeys : ∀ key, key ∈ lruK.hotKeys ↔ lruK.isHot key = true
  byRecency_hotKeys : ByRecency (LruK.serve.accesses start calls).reverse lruK.hotKeys
  put_of_full : ∀ key, lruK.isResident key = false → lruK.size = capacity →
    ∃ victim, lruK.isResident victim = true ∧
      Expendable k (LruK.serve.admissions isResident start calls).reverse
        (LruK.serve.accesses start calls).reverse lruK victim ∧
      ∀ other, (lruK.put key).2.isResident other = true ↔
        other = key ∨ lruK.isResident other = true ∧ other ≠ victim
  full_of_leaves : ∀ call other, lruK.isResident other = true →
    (LruK.serve lruK call).2.isResident other = false →
    ∃ key, call = .put key ∧ lruK.isResident key = false ∧ lruK.size = capacity

theorem aged_create {k capacity : Nat} {start : LruK κ} (h : create k capacity = .ok start) :
    Aged [] [] start := by
  obtain ⟨-, rfl⟩ := create_eq h
  exact ⟨(valid_create h).1, List.Pairwise.nil, List.Pairwise.nil⟩

/-- A separator with room for a key keeps exact books in every run. -/
theorem accounts_of_run {k capacity : Nat} (hpos : 1 ≤ capacity) {start : LruK κ}
    (hstart : create k capacity = .ok start) (calls : List (Call κ)) :
    Accounts k capacity start calls (serve.run start calls) := by
  have haged := aged_create hstart
  obtain ⟨-, hinit⟩ := create_eq hstart
  have hk : start.k = k := by rw [hinit]
  have hcapacity : start.capacity = capacity := by rw [hinit]
  have hempty (key : κ) : start.accessCount? key = none := by
    rw [hinit]
    exact Std.HashMap.getElem?_empty
  have hroom : start.capacity ≠ 0 := by omega
  obtain ⟨hrunK, hrunCapacity⟩ := settings_run hroom calls
  have hrun := haged.run hroom calls
  have hrunRoom : (serve.run start calls).capacity ≠ 0 := by rwa [hrunCapacity]
  refine {
    accessCount?_eq := fun key ↦ exists_tenure_of_run haged.valid hroom hempty calls
    isHot_iff := ?_
    nodup_hotKeys := hrun.valid.nodup_hotKeys
    mem_hotKeys := fun key ↦ hrun.valid.mem_hotKeys
    byRecency_hotKeys := hrun.cache
    put_of_full := ?_
    full_of_leaves := ?_ }
  · intro key
    rw [← hk, ← hrunK]
    exact hrun.valid.isHot_iff
  · intro key hnew hfull
    rw [← hk, ← hrunK]
    apply hrun.put_of_full hrunRoom hnew
    rw [hfull, hrunCapacity, hcapacity]
  · intro call other hother hleaves
    rw [← hcapacity, ← hrunCapacity]
    exact hrun.valid.full_of_leaves hrunRoom hother hleaves

/-- Key 1 is admitted before key 2, which waits alone after the second access to key 1. -/
theorem accounts_of_run_two :
    1 ≤ 2 ∧ create (κ := Nat) 2 2 = .ok ⟨∅, .empty, .empty, 2, 2⟩ ∧
      Accounts 2 2 ⟨∅, .empty, .empty, 2, 2⟩ [.put 1, .put 2, .get 1]
        (serve.run ⟨∅, .empty, .empty, 2, 2⟩ [.put 1, .put 2, .get (1 : Nat)]) := by
  have hpos : 1 ≤ 2 := by decide
  have hstart : create (κ := Nat) 2 2 = .ok ⟨∅, .empty, .empty, 2, 2⟩ := rfl
  exact ⟨hpos, hstart, accounts_of_run hpos hstart _⟩

end KeyHeat.LruK

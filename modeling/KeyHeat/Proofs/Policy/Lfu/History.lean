import KeyHeat.Proofs.Policy.Accesses
import KeyHeat.Proofs.Policy.Lfu
import Mathlib.Data.List.Sort
import Mathlib.Order.Bounds.Basic

/-!
# The least-frequently-used policy keeps exact books

In any run the frequency of a resident key is the number of accesses to it since its admission,
the cursor stands on the least frequency, and every bucket is in the order of recency. Hence the
hot keys are listed by frequency and recency, and a new key takes the place of the last of them.
-/

namespace KeyHeat.Lfu

variable {κ : Type} [BEq κ] [Hashable κ] {lfu : Lfu κ} {key : κ} {log : List κ}

/-- The outcome of a call and the state that it leaves. -/
def serve : Service (Lfu κ) κ
  | lfu, .put key => lfu.put key
  | lfu, .get key => lfu.get key

/-- What a call can do: it touches a resident key, admits a new one, or misses. -/
inductive Served (lfu : Lfu κ) (call : Call κ) : Access × Lfu κ → Prop
  | touched (frequency : Nat) (hget : lfu.frequencies[call.key]? = some frequency) :
    Served lfu call (.ok (), lfu.touch call.key frequency)
  | enrolled (hput : call = .put call.key) (hnew : lfu.frequencies[call.key]? = none) :
    Served lfu call (.ok (), lfu.enroll call.key)
  | missed (hget : call = .get call.key) (hnew : lfu.frequencies[call.key]? = none) :
    Served lfu call (.error .notFound, lfu)

theorem capacity_serve (call : Call κ) : (serve lfu call).2.capacity = lfu.capacity := by
  cases call with
  | put key => exact capacity_put key
  | get key => exact capacity_get key

theorem capacity_run (lfu : Lfu κ) (calls : List (Call κ)) :
    (serve.run lfu calls).capacity = lfu.capacity := by
  apply serve.run_invariant (P := fun state ↦ state.capacity = lfu.capacity) _ rfl
  intro state call hsame
  exact (capacity_serve call).trans hsame

/-- The victim is the last key of the bucket under the cursor. -/
theorem Valid.victim?_eq (h : lfu.Valid) :
    lfu.victim? = (keysAt lfu.buckets lfu.minFrequency).getLast? := by
  rw [victim?, keysAt]
  cases hbucket : lfu.buckets[lfu.minFrequency]? with
  | none => rfl
  | some bucket => exact (h.filed.bucket _ bucket hbucket).1.peek?_back

variable [LawfulBEq κ]

theorem Valid.served (h : lfu.Valid) (hpos : lfu.capacity ≠ 0) (call : Call κ) :
    Served lfu call (serve lfu call) := by
  cases call with
  | put key =>
    rw [serve, h.put_eq, if_neg hpos, frequency?]
    cases hget : lfu.frequencies[key]? with
    | none => exact .enrolled rfl hget
    | some frequency => exact .touched frequency hget
  | get key =>
    rw [serve, h.get_eq, frequency?]
    cases hget : lfu.frequencies[key]? with
    | none => exact .missed rfl hget
    | some frequency => exact .touched frequency hget

theorem Valid.serve (h : lfu.Valid) (call : Call κ) : (Lfu.serve lfu call).2.Valid := by
  cases call with
  | put key => exact h.put key
  | get key => exact h.get key

theorem isHot_iff : lfu.isHot key = true ↔ ∃ frequency, lfu.frequency? key = some frequency := by
  rw [isHot, ← Std.HashMap.mem_iff_contains, mem_iff_exists_getElem?, frequency?]

theorem isHot_eq_false_iff : lfu.isHot key = false ↔ lfu.frequencies[key]? = none := by
  rw [← Bool.not_eq_true, isHot_iff, frequency?, Option.eq_none_iff_forall_ne_some, not_exists]

omit [LawfulBEq κ] in
theorem Valid.evict_eq (h : lfu.Valid) (hne : lfu.size ≠ 0) :
    ∃ victim, (keysAt lfu.buckets lfu.minFrequency).getLast? = some victim ∧
      lfu.frequencies[victim]? = some lfu.minFrequency ∧
      lfu.evict = ⟨lfu.frequencies.erase victim,
        withdraw lfu.buckets lfu.minFrequency victim, lfu.minFrequency, lfu.capacity⟩ := by
  obtain ⟨victim, hvictim, hget⟩ := h.exists_victim hne
  refine ⟨victim, h.victim?_eq ▸ hvictim, hget, ?_⟩
  rw [Lfu.evict, hvictim]

/-- Room is made by taking frequencies away. -/
theorem getElem?_of_makeRoom {frequency : Nat}
    (hget : lfu.makeRoom.frequencies[key]? = some frequency) :
    lfu.frequencies[key]? = some frequency := by
  unfold makeRoom evict at hget
  split_ifs at hget
  · cases hvictim : lfu.victim? with
    | none => rwa [hvictim] at hget
    | some victim =>
      simp only [hvictim, Std.HashMap.getElem?_erase] at hget
      split_ifs at hget
      exact hget
  · exact hget

/-! ## Frequencies -/

theorem getElem?_touch (key other : κ) (frequency : Nat) :
    (lfu.touch key frequency).frequencies[other]? =
      if key == other then some (frequency + 1) else lfu.frequencies[other]? :=
  Std.HashMap.getElem?_insert

theorem getElem?_enroll (key other : κ) :
    (lfu.enroll key).frequencies[other]? =
      if key == other then some 1 else lfu.makeRoom.frequencies[other]? :=
  Std.HashMap.getElem?_insert

/-- A key is resident once it is put. -/
theorem Valid.isHot_put (h : lfu.Valid) (hpos : lfu.capacity ≠ 0) (key : κ) :
    (lfu.put key).2.isHot key = true := by
  have hserved := h.served hpos (.put key)
  change (Lfu.serve lfu (.put key)).2.isHot key = true
  rw [isHot_iff]
  generalize Lfu.serve lfu (.put key) = outcome at hserved ⊢
  cases hserved with
  | touched frequency hget =>
    refine ⟨frequency + 1, ?_⟩
    exact (getElem?_touch key key frequency).trans (if_pos BEq.rfl)
  | enrolled hput hnew =>
    refine ⟨1, ?_⟩
    exact (getElem?_enroll key key).trans (if_pos BEq.rfl)
  | missed hread hnew => cases hread

theorem Valid.tallied (h : lfu.Valid) (hpos : lfu.capacity ≠ 0) (call : Call κ) :
    Tallied lfu.frequencies call.key (Lfu.serve lfu call).1
      (Lfu.serve lfu call).2.frequencies := by
  have hserved := h.served hpos call
  generalize Lfu.serve lfu call = outcome at hserved ⊢
  cases hserved with
  | touched frequency hget => exact .counted frequency hget
  | enrolled hput hnew => exact .admitted _ hnew fun other frequency ↦ getElem?_of_makeRoom
  | missed hread hnew => exact .failed .notFound

/-- A call adds the access that it makes to the frequency of a key that stays or is admitted. -/
theorem Valid.frequency?_serve (h : lfu.Valid) (hpos : lfu.capacity ≠ 0) (call : Call κ) :
    ∀ frequency ∈ (Lfu.serve lfu call).2.frequency? key,
      frequency = (lfu.frequency? key).getD 0 + (Lfu.serve.accessed lfu call).count key := by
  intro frequency hafter
  exact (h.tallied hpos call).count_eq hafter

/-- The frequency of a resident key is the number of accesses in its tenure. -/
theorem Valid.exists_tenure_of_run {start : Lfu κ} (h : start.Valid) (hpos : start.capacity ≠ 0)
    (hempty : ∀ key, start.frequency? key = none) (calls : List (Call κ))
    (hhot : (Lfu.serve.run start calls).isHot key = true) :
    ∃ before stay, calls = before ++ stay ∧
      Lfu.serve.Tenure (·.isHot key = true) start before stay ∧
      (Lfu.serve.run start calls).frequency? key =
        some ((Lfu.serve.accesses (Lfu.serve.run start before) stay).count key) := by
  obtain ⟨frequency, hfrequency⟩ := isHot_iff.1 hhot
  have hresident (state : Lfu κ) (key : κ) :
      state.isHot key = true ↔ ∃ frequency, state.frequency? key = some frequency := isHot_iff
  have hserve (state : Lfu κ) (call : Call κ) (hstate : state.Valid ∧ state.capacity ≠ 0) :
      (Lfu.serve state call).2.Valid ∧ (Lfu.serve state call).2.capacity ≠ 0 := by
    rw [capacity_serve]
    exact ⟨hstate.1.serve call, hstate.2⟩
  have hcount (state : Lfu κ) (call : Call κ) (hstate : state.Valid ∧ state.capacity ≠ 0)
      (key : κ) : ∀ frequency ∈ (Lfu.serve state call).2.frequency? key,
        frequency = (state.frequency? key).getD 0 + (Lfu.serve.accessed state call).count key :=
    hstate.1.frequency?_serve hstate.2 call
  obtain ⟨before, stay, hsplit, htenure, heq⟩ :=
    Service.exists_tenure hresident hserve hcount ⟨h, hpos⟩ hempty calls hfrequency
  exact ⟨before, stay, hsplit, htenure, heq ▸ hfrequency⟩

/-! ## Ranks -/

/-- Every bucket is in the order of recency, and the cursor is at most the least frequency. -/
structure Ranked (log : List κ) (lfu : Lfu κ) : Prop where
  valid : lfu.Valid
  recency : ∀ frequency, ByRecency log (keysAt lfu.buckets frequency)
  cursor_le : ∀ (key : κ) (frequency : Nat), lfu.frequencies[key]? = some frequency →
    lfu.minFrequency ≤ frequency
  cursor_pos : 0 < lfu.minFrequency

section Buckets

variable {buckets : Std.HashMap Nat (KeyedList κ)} {frequencies : Std.HashMap κ Nat}

/-- A key goes in front of its bucket when it is accessed. -/
theorem Filed.byRecency_file (h : Filed buckets frequencies) (hnew : frequencies[key]? = none)
    (hrecency : ∀ frequency, ByRecency log (keysAt buckets frequency)) (frequency other : Nat) :
    ByRecency (key :: log) (keysAt (Lfu.file buckets frequency key) other) := by
  have hfresh (frequency : Nat) : key ∉ keysAt buckets frequency := by
    rw [h.mem_iff, hnew]
    rintro ⟨⟩
  rw [h.keysAt_file, List.erase_of_not_mem (hfresh frequency)]
  split_ifs
  · exact (hrecency frequency).log_front (hfresh frequency)
  · exact (hrecency other).log_other (hfresh other)

theorem Filed.byRecency_withdraw (h : Filed buckets frequencies)
    (hrecency : ∀ frequency, ByRecency log (keysAt buckets frequency)) (frequency other : Nat)
    (key : κ) : ByRecency log (keysAt (Lfu.withdraw buckets frequency key) other) := by
  rw [h.keysAt_withdraw]
  split_ifs
  · exact (hrecency frequency).sublist List.erase_sublist
  · exact hrecency other

end Buckets

/-- The cursor follows a key that leaves the last bucket under it, and then no other key is as
infrequent as it was. -/
theorem Ranked.cursor_touch (h : Ranked log lfu) {frequency : Nat}
    (hget : lfu.frequencies[key]? = some frequency) {other : κ} {frequency' : Nat}
    (hother : (lfu.touch key frequency).frequencies[other]? = some frequency') :
    (lfu.touch key frequency).minFrequency ≤ frequency' := by
  have hle := h.cursor_le key frequency hget
  change (if lfu.minFrequency = frequency ∧
      !(withdraw lfu.buckets frequency key).contains frequency then frequency + 1
    else lfu.minFrequency) ≤ frequency'
  by_cases hkey : key = other
  · rw [getElem?_touch, if_pos (beq_iff_eq.2 hkey)] at hother
    rw [← Option.some.inj hother]
    split_ifs
    · exact Nat.le_refl _
    · exact Nat.le_succ_of_le hle
  · rw [getElem?_touch, if_neg (by simpa using hkey)] at hother
    have hbound := h.cursor_le other frequency' hother
    -- The cursor moves only off an empty bucket, in which the other key cannot be.
    split_ifs with hgone
    · have hne : frequency' ≠ frequency := by
        rintro rfl
        have hfiled := h.valid.filed.withdraw hget
        have hmem : other ∈ keysAt (withdraw lfu.buckets frequency' key) frequency' := by
          rw [hfiled.mem_iff, getElem?_erase_of_ne _ (Ne.symm hkey), hother]
        simp [hfiled.mem_buckets.2 (List.ne_nil_of_mem hmem)] at hgone
      omega
    · exact hbound

theorem Ranked.touch (h : Ranked log lfu) {frequency : Nat}
    (hget : lfu.frequencies[key]? = some frequency) :
    Ranked (key :: log) (lfu.touch key frequency) where
  valid := h.valid.touch hget
  recency := by
    apply (h.valid.filed.withdraw hget).byRecency_file Std.HashMap.getElem?_erase_self
    intro other
    exact h.valid.filed.byRecency_withdraw h.recency frequency other key
  cursor_le other frequency' hother := h.cursor_touch hget hother
  cursor_pos := by
    change 0 < if lfu.minFrequency = frequency ∧
      !(withdraw lfu.buckets frequency key).contains frequency then frequency + 1
      else lfu.minFrequency
    split_ifs
    · exact Nat.succ_pos frequency
    · exact h.cursor_pos

theorem Ranked.recency_makeRoom (h : Ranked log lfu) (hpos : lfu.capacity ≠ 0) (frequency : Nat) :
    ByRecency log (keysAt lfu.makeRoom.buckets frequency) := by
  unfold makeRoom
  split_ifs with hfull
  · have hne : lfu.size ≠ 0 := Nat.ne_of_gt (Nat.lt_of_lt_of_le (Nat.pos_of_ne_zero hpos) hfull)
    obtain ⟨victim, -, -, hevict⟩ := h.valid.evict_eq hne
    rw [hevict]
    exact h.valid.filed.byRecency_withdraw h.recency _ frequency victim
  · exact h.recency frequency

theorem Ranked.enroll (h : Ranked log lfu) (hpos : lfu.capacity ≠ 0)
    (hnew : lfu.frequencies[key]? = none) : Ranked (key :: log) (lfu.enroll key) where
  valid := h.valid.enroll hpos hnew
  recency := by
    obtain ⟨hfiled, -, hkept⟩ := h.valid.makeRoom hpos
    exact hfiled.byRecency_file (hkept key hnew) (h.recency_makeRoom hpos) 1
  cursor_le other frequency hother := by
    change 1 ≤ frequency
    rw [getElem?_enroll] at hother
    split_ifs at hother
    · exact Nat.le_of_eq (Option.some.inj hother)
    · exact h.cursor_pos.trans_le (h.cursor_le other frequency (getElem?_of_makeRoom hother))
  cursor_pos := Nat.one_pos

theorem Ranked.serve (h : Ranked log lfu) (hpos : lfu.capacity ≠ 0) (call : Call κ) :
    Ranked ((Lfu.serve.accessed lfu call).reverse ++ log) (Lfu.serve lfu call).2 := by
  have hserved := h.valid.served hpos call
  rw [Service.accessed]
  generalize Lfu.serve lfu call = outcome at hserved ⊢
  cases hserved with
  | touched frequency hget => exact h.touch hget
  | enrolled hput hnew => exact h.enroll hpos hnew
  | missed hread hnew => exact h

theorem ranked_empty (capacity minFrequency : Nat) :
    Ranked [] (empty capacity minFrequency : Lfu κ) where
  valid := valid_empty capacity minFrequency
  recency frequency := by simp [empty, keysAt, ByRecency]
  cursor_le key frequency hget := by simp [empty] at hget
  cursor_pos := Nat.lt_of_lt_of_le Nat.one_pos (Nat.le_max_right _ _)

theorem Ranked.run {start : Lfu κ} (h : Ranked [] start) (hpos : start.capacity ≠ 0)
    (calls : List (Call κ)) :
    Ranked (Lfu.serve.accesses start calls).reverse (Lfu.serve.run start calls) := by
  have hserve (log : List κ) (state : Lfu κ) (call : Call κ)
      (hstate : Ranked log state ∧ state.capacity ≠ 0) :
      Ranked ((Lfu.serve.accessed state call).reverse ++ log) (Lfu.serve state call).2 ∧
        (Lfu.serve state call).2.capacity ≠ 0 := by
    rw [capacity_serve]
    exact ⟨hstate.1.serve hstate.2 call, hstate.2⟩
  exact (Lfu.serve.accesses_invariant hserve ⟨h, hpos⟩ calls).1

/-! ## The order of the hot keys -/

/-- The first key is more frequent than the second, or as frequent and accessed more recently. -/
def Outranks (log : List κ) (lfu : Lfu κ) (first second : κ) : Prop :=
  ∃ m n, lfu.frequency? first = some m ∧ lfu.frequency? second = some n ∧
    (n < m ∨ n = m ∧ log.idxOf first < log.idxOf second)

omit [LawfulBEq κ] in
theorem Ranked.pairwise_hotKeys (h : Ranked log lfu) :
    lfu.hotKeys.Pairwise (Outranks log lfu) := by
  have hfrequency {frequency : Nat} {key : κ} (hmem : key ∈ keysAt lfu.buckets frequency) :
      lfu.frequency? key = some frequency := (h.valid.filed.mem_iff frequency key).1 hmem
  have hsorted : (lfu.buckets.keys.mergeSort (· ≥ ·)).Pairwise (· ≥ ·) :=
    List.pairwise_mergeSort' (· ≥ ·) _
  have hdistinct : (lfu.buckets.keys.mergeSort (· ≥ ·)).Pairwise (· ≠ ·) :=
    (List.mergeSort_perm _ _).nodup_iff.2 Std.HashMap.nodup_keys
  rw [hotKeys, List.pairwise_flatMap]
  constructor
  · intro frequency _
    apply List.Pairwise.imp_of_mem _ (h.recency frequency)
    intro first second hfirst hsecond hlt
    exact ⟨frequency, frequency, hfrequency hfirst, hfrequency hsecond, .inr ⟨rfl, hlt⟩⟩
  · apply (hsorted.and hdistinct).imp
    intro m n hmn first hfirst second hsecond
    exact ⟨m, n, hfrequency hfirst, hfrequency hsecond, .inl (lt_of_le_of_ne hmn.1 hmn.2.symm)⟩

/-- The cursor stands on the least frequency as long as there is any resident key. -/
theorem Ranked.isLeast_minFrequency (h : Ranked log lfu) (hhot : lfu.isHot key = true) :
    IsLeast {frequency | ∃ key, lfu.frequency? key = some frequency} lfu.minFrequency := by
  have hne : lfu.size ≠ 0 := (size_pos_of_mem (Std.HashMap.contains_iff_mem.1 hhot)).ne'
  obtain ⟨victim, -, hget⟩ := h.valid.exists_victim hne
  refine ⟨⟨victim, hget⟩, ?_⟩
  rintro frequency ⟨key, hkey⟩
  exact h.cursor_le key frequency hkey

/-! ## Evictions -/

/-- All other resident keys outrank the last key of the bucket under the cursor. -/
theorem Ranked.outranks_last (h : Ranked log lfu) {victim other : κ}
    (hlast : (keysAt lfu.buckets lfu.minFrequency).getLast? = some victim)
    (hvictim : lfu.frequencies[victim]? = some lfu.minFrequency) (hother : lfu.isHot other = true)
    (hne : other ≠ victim) : Outranks log lfu other victim := by
  obtain ⟨frequency, hfrequency⟩ := isHot_iff.1 hother
  refine ⟨frequency, lfu.minFrequency, hfrequency, hvictim, ?_⟩
  rcases Nat.lt_or_eq_of_le (h.cursor_le other frequency hfrequency) with hlt | heq
  · exact .inl hlt
  · have hmem : other ∈ keysAt lfu.buckets lfu.minFrequency := by
      rw [h.valid.filed.mem_iff, heq]
      exact hfrequency
    exact .inr ⟨heq, (h.recency lfu.minFrequency).lt_getLast hlast hmem hne⟩

/-- A new key takes the place of the key that all others outrank. -/
theorem Ranked.put_of_full (h : Ranked log lfu) (hpos : lfu.capacity ≠ 0)
    (hnew : lfu.isHot key = false) (hfull : lfu.size = lfu.capacity) :
    ∃ victim, lfu.isHot victim = true ∧
      (∀ other, lfu.isHot other = true → other ≠ victim → Outranks log lfu other victim) ∧
      ∀ other, (lfu.put key).2.isHot other = true ↔
        other = key ∨ lfu.isHot other = true ∧ other ≠ victim := by
  have hne : lfu.size ≠ 0 := by rwa [hfull]
  obtain ⟨victim, hlast, hvictim, hevict⟩ := h.valid.evict_eq hne
  refine ⟨victim, isHot_iff.2 ⟨_, hvictim⟩, ?_, ?_⟩
  · intro other hother hother'
    exact h.outranks_last hlast hvictim hother hother'
  · intro other
    have hput : (lfu.put key).2.frequencies = (lfu.frequencies.erase victim).insert key 1 := by
      have hroom : lfu.makeRoom = lfu.evict := if_pos (Nat.le_of_eq hfull.symm)
      simp only [h.valid.put_eq, if_neg hpos, frequency?, isHot_eq_false_iff.1 hnew]
      rw [enroll_eq, hroom, hevict]
    rw [isHot, hput, isHot, Std.HashMap.contains_iff_mem, Std.HashMap.contains_iff_mem,
      Std.HashMap.mem_insert, Std.HashMap.mem_erase, beq_iff_eq, beq_eq_false_iff_ne,
      eq_comm (a := key), ne_comm (a := victim), and_comm (a := other ≠ victim)]

/-- A key leaves only for a new key, and only if the separator is full. -/
theorem Valid.full_of_leaves (h : lfu.Valid) (hpos : lfu.capacity ≠ 0) {call : Call κ} {other : κ}
    (hother : lfu.isHot other = true) (hleaves : (Lfu.serve lfu call).2.isHot other = false) :
    ∃ key, call = .put key ∧ lfu.isHot key = false ∧ lfu.size = lfu.capacity := by
  obtain ⟨frequency, hget : lfu.frequencies[other]? = some frequency⟩ := isHot_iff.1 hother
  have hserved := h.served hpos call
  generalize Lfu.serve lfu call = outcome at hserved hleaves
  rw [isHot_eq_false_iff] at hleaves
  cases hserved with
  | touched earlier hkey =>
    rw [getElem?_touch, hget] at hleaves
    split_ifs at hleaves
  | enrolled hput hnew =>
    refine ⟨call.key, hput, isHot_eq_false_iff.2 hnew, ?_⟩
    by_contra hroom
    have hsame : lfu.makeRoom = lfu := if_neg (by have := h.size_le; omega)
    rw [getElem?_enroll, hsame, hget] at hleaves
    split_ifs at hleaves
  | missed hread hnew =>
    rw [hget] at hleaves
    cases hleaves

/-! ## The books -/

/-- What holds after some calls. The frequency of a resident key is the number of accesses in its
tenure; the hot keys are the resident keys by rank; the cursor stands on the least frequency; and
a put makes its key resident, in place of another only if the key is new and finds the separator
full, and then in place of the one with the lowest rank. -/
structure Bookkeeping (start : Lfu κ) (calls : List (Call κ)) (lfu : Lfu κ) : Prop where
  frequency_eq : ∀ key, lfu.isHot key = true → ∃ before stay, calls = before ++ stay ∧
    Lfu.serve.Tenure (·.isHot key = true) start before stay ∧
    lfu.frequency? key =
      some ((Lfu.serve.accesses (Lfu.serve.run start before) stay).count key)
  nodup_hotKeys : lfu.hotKeys.Nodup
  mem_hotKeys : ∀ key, key ∈ lfu.hotKeys ↔ lfu.isHot key = true
  pairwise_hotKeys :
    lfu.hotKeys.Pairwise (Outranks (Lfu.serve.accesses start calls).reverse lfu)
  isLeast_minFrequency : ∀ key, lfu.isHot key = true →
    IsLeast {frequency | ∃ key, lfu.frequency? key = some frequency} lfu.minFrequency
  isHot_put : ∀ key, (lfu.put key).2.isHot key = true
  put_of_full : ∀ key, lfu.isHot key = false → lfu.size = start.capacity →
    ∃ victim, lfu.isHot victim = true ∧
      (∀ other, lfu.isHot other = true → other ≠ victim →
        Outranks (Lfu.serve.accesses start calls).reverse lfu other victim) ∧
      ∀ other, (lfu.put key).2.isHot other = true ↔
        other = key ∨ lfu.isHot other = true ∧ other ≠ victim
  full_of_leaves : ∀ call other, lfu.isHot other = true →
    (Lfu.serve lfu call).2.isHot other = false →
    ∃ key, call = .put key ∧ lfu.isHot key = false ∧ lfu.size = start.capacity

/-- A separator with room for a key keeps exact books in every run, wherever its cursor starts. -/
theorem bookkeeping_of_run {capacity : Nat} (hpos : 1 ≤ capacity) (minFrequency : Nat)
    (calls : List (Call κ)) :
    Bookkeeping (empty capacity minFrequency) calls
      (serve.run (empty capacity minFrequency) calls) := by
  have hstart : (empty capacity minFrequency : Lfu κ).capacity ≠ 0 := Nat.ne_of_gt hpos
  have hcapacity := capacity_run (empty capacity minFrequency) calls
  have hrun : (serve.run (empty capacity minFrequency) calls).capacity ≠ 0 := by rwa [hcapacity]
  have hranked := (ranked_empty capacity minFrequency).run hstart calls
  have hempty (key : κ) : (empty capacity minFrequency : Lfu κ).frequency? key = none :=
    Std.HashMap.getElem?_empty
  refine {
    frequency_eq := fun key hhot ↦
      (valid_empty capacity minFrequency).exists_tenure_of_run hstart hempty calls hhot
    nodup_hotKeys := hranked.valid.nodup_hotKeys
    mem_hotKeys := fun key ↦ hranked.valid.mem_hotKeys
    pairwise_hotKeys := hranked.pairwise_hotKeys
    isLeast_minFrequency := fun key hhot ↦ hranked.isLeast_minFrequency hhot
    isHot_put := hranked.valid.isHot_put hrun
    put_of_full := ?_
    full_of_leaves := ?_ }
  · intro key hnew hfull
    exact hranked.put_of_full hrun hnew (hfull.trans hcapacity.symm)
  · intro call other hother hleaves
    rw [← hcapacity]
    exact hranked.valid.full_of_leaves hrun hother hleaves

/-- Key 1 is put and accessed once more, and the miss of key 9 changes nothing. -/
theorem bookkeeping_of_run_two :
    1 ≤ 2 ∧ Bookkeeping (empty 2 5) [.put 1, .get 1, .get 9]
        (serve.run (empty 2 5) [.put 1, .get 1, .get 9]) ∧
      (serve.run (empty (κ := Nat) 2 5) [.put 1, .get 1, .get 9]).frequency? 1 = some 2 := by
  refine ⟨by decide, bookkeeping_of_run (by decide) 5 _, ?_⟩
  have hstart := valid_empty (κ := Nat) 2 5
  have hput := hstart.put 1
  simp only [serve, Service.run]
  rw [(hput.get 1).get_eq, hput.get_eq, hstart.put_eq]
  simp [frequency?, Lfu.touch, Lfu.enroll, empty, size]

end KeyHeat.Lfu

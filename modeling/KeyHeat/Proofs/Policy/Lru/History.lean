import KeyHeat.Proofs.Policy.Accesses
import KeyHeat.Proofs.Policy.Lru

/-!
# The least-recently-used policy holds the latest keys

After any run the hot keys are the accessed keys without repetitions, the latest first, cut to the
capacity. Hence a new key in a full separator takes the place of the key that was accessed least
recently, and no other call removes a key. After the same writes, what a separator holds is the
beginning of what a larger one holds.
-/

namespace KeyHeat.Lru

variable {κ : Type} [BEq κ] [Hashable κ] {lru : Lru κ} {key : κ} {log : List κ}

/-- The outcome of a call and the state that it leaves. -/
def serve : Service (Lru κ) κ
  | lru, .put key => lru.put key
  | lru, .get key => lru.get key

theorem capacity_serve (call : Call κ) : (serve lru call).2.capacity = lru.capacity := by
  cases call with
  | put key => exact capacity_put key
  | get key => exact capacity_get key

theorem capacity_run (lru : Lru κ) (calls : List (Call κ)) :
    (serve.run lru calls).capacity = lru.capacity := by
  apply serve.run_invariant (P := fun state ↦ state.capacity = lru.capacity) _ rfl
  intro state call hsame
  exact (capacity_serve call).trans hsame

/-- What a call can do: it touches a resident key, admits a new one, or misses. -/
inductive Served (lru : Lru κ) (call : Call κ) : Access × Lru κ → Prop
  | touched (hold : lru.isHot call.key = true) : Served lru call (.ok (), lru.touch call.key)
  | enrolled (hput : call = .put call.key) (hnew : lru.isHot call.key = false) :
    Served lru call (.ok (), lru.enroll call.key)
  | missed (hget : call = .get call.key) (hnew : lru.isHot call.key = false) :
    Served lru call (.error .notFound, lru)

theorem Valid.length_hotKeys (h : lru.Valid) : lru.hotKeys.length = lru.size :=
  h.keys.length_eq.symm

variable [LawfulBEq κ]

theorem Valid.served (h : lru.Valid) (hpos : lru.capacity ≠ 0) (call : Call κ) :
    Served lru call (serve lru call) := by
  cases call with
  | put key =>
    rw [serve, h.put_eq, if_neg hpos]
    split_ifs with hold
    · exact .touched hold
    · exact .enrolled rfl (Bool.eq_false_of_not_eq_true hold)
  | get key =>
    rw [serve, h.get_eq]
    split_ifs with hold
    · exact .touched hold
    · exact .missed rfl (Bool.eq_false_of_not_eq_true hold)

theorem Valid.not_mem_hotKeys (h : lru.Valid) (hnew : lru.isHot key = false) :
    key ∉ lru.hotKeys := by
  rw [h.mem_hotKeys, hnew]
  exact Bool.false_ne_true

/-! ## The hot keys after a call -/

/-- Room for one key is all that is made. -/
theorem Valid.toList_makeRoom (h : lru.Valid) :
    lru.makeRoom.toList = lru.hotKeys.take (lru.capacity - 1) := by
  have hlength := h.length_hotKeys
  have hsize := h.size_le
  unfold Lru.makeRoom
  split_ifs with hfull
  · change lru.capacity ≤ lru.size at hfull
    rw [h.keys.toList_pop_back, List.dropLast_eq_take, ← hotKeys, hlength, le_antisymm hsize hfull]
  · change ¬lru.capacity ≤ lru.size at hfull
    symm
    apply List.take_of_length_le
    omega

theorem Valid.hotKeys_enroll (h : lru.Valid) (hpos : lru.capacity ≠ 0)
    (hnew : lru.isHot key = false) :
    (lru.enroll key).hotKeys = (key :: lru.hotKeys).take lru.capacity := by
  obtain ⟨bound, hbound⟩ := Nat.exists_eq_succ_of_ne_zero hpos
  have hnot : key ∉ lru.makeRoom.toList := by
    rw [h.toList_makeRoom]
    exact fun hmem ↦ h.not_mem_hotKeys hnew (List.mem_of_mem_take hmem)
  calc
    (lru.enroll key).hotKeys = key :: lru.makeRoom.toList :=
      (h.makeRoom hpos).1.toList_push_of_not_mem .front hnot
    _ = (key :: lru.hotKeys).take lru.capacity := by
      rw [h.toList_makeRoom, hbound, Nat.succ_sub_one, List.take_succ_cons]

theorem Valid.hotKeys_touch (h : lru.Valid) (hold : lru.isHot key = true) :
    (lru.touch key).hotKeys = (key :: lru.hotKeys.erase key).take lru.capacity := by
  have hmem := h.mem_hotKeys.2 hold
  have hle : (key :: lru.hotKeys.erase key).length ≤ lru.capacity := by
    rw [List.length_cons, List.length_erase_add_one hmem, h.length_hotKeys]
    exact h.size_le
  rw [List.take_of_length_le hle]
  exact h.keys.toList_touch .front hmem

/-! ## The latest keys -/

/-- The hot keys are the latest of the log, up to the capacity. -/
structure Latest (log : List κ) (lru : Lru κ) : Prop where
  valid : lru.Valid
  capacity_ne_zero : lru.capacity ≠ 0
  hotKeys_eq : lru.hotKeys = log.eraseDups.take lru.capacity

theorem latest_empty {capacity : Nat} (hpos : 1 ≤ capacity) :
    Latest [] (empty capacity : Lru κ) where
  valid := valid_empty capacity
  capacity_ne_zero := Nat.ne_of_gt hpos
  hotKeys_eq := List.take_nil.symm

theorem Latest.serve (h : Latest log lru) (call : Call κ) :
    Latest ((Lru.serve.accessed lru call).reverse ++ log) (Lru.serve lru call).2 := by
  have hpos := h.capacity_ne_zero
  have hserved := h.valid.served hpos call
  rw [Service.accessed]
  generalize Lru.serve lru call = outcome at hserved ⊢
  cases hserved with
  | touched hold =>
    refine ⟨h.valid.touch call.key, hpos, ?_⟩
    rw [h.valid.hotKeys_touch hold, h.hotKeys_eq]
    exact (take_eraseDups_cons lru.capacity call.key log).symm
  | enrolled hput hnew =>
    refine ⟨h.valid.enroll hpos call.key, hpos, ?_⟩
    rw [h.valid.hotKeys_enroll hpos hnew, ← List.erase_of_not_mem (h.valid.not_mem_hotKeys hnew),
      h.hotKeys_eq]
    exact (take_eraseDups_cons lru.capacity call.key log).symm
  | missed hget hnew => exact h

theorem latest_run {capacity : Nat} (hpos : 1 ≤ capacity) (calls : List (Call κ)) :
    Latest (Lru.serve.accesses (empty capacity) calls).reverse
      (Lru.serve.run (empty capacity) calls) := by
  apply Lru.serve.accesses_invariant _ (latest_empty hpos)
  intro log state call hlatest
  exact hlatest.serve call

/-! ## Evictions -/

/-- A new key takes the place of the last one. -/
theorem Valid.put_of_full (h : lru.Valid) (hpos : lru.capacity ≠ 0) (hnew : lru.isHot key = false)
    (hfull : lru.size = lru.capacity) :
    ∃ kept victim, lru.hotKeys = kept ++ [victim] ∧ (lru.put key).2.hotKeys = key :: kept := by
  have hlength := h.length_hotKeys.trans hfull
  have hne : lru.hotKeys ≠ [] := List.ne_nil_of_length_pos (by omega)
  refine ⟨lru.hotKeys.dropLast, lru.hotKeys.getLast hne, ?_, ?_⟩
  · exact (List.dropLast_append_getLast hne).symm
  · have hput : (lru.put key).2 = lru.enroll key := by
      rw [h.put_eq, if_neg hpos, if_neg (Bool.eq_false_iff.1 hnew)]
    obtain ⟨bound, hbound⟩ := Nat.exists_eq_succ_of_ne_zero hpos
    calc
      (lru.put key).2.hotKeys = (key :: lru.hotKeys).take lru.capacity := by
        rw [hput, h.hotKeys_enroll hpos hnew]
      _ = key :: lru.hotKeys.take bound := by rw [hbound, List.take_succ_cons]
      _ = key :: lru.hotKeys.dropLast := by
        rw [List.dropLast_eq_take, hlength, hbound, Nat.succ_sub_one]

/-- A key leaves only for a new key, and only if the separator is full. -/
theorem Valid.full_of_leaves (h : lru.Valid) (hpos : lru.capacity ≠ 0) {call : Call κ} {other : κ}
    (hother : lru.isHot other = true) (hleaves : (Lru.serve lru call).2.isHot other = false) :
    ∃ key, call = .put key ∧ lru.isHot key = false ∧ lru.size = lru.capacity := by
  have hserved := h.served hpos call
  have hmem := h.mem_hotKeys.2 hother
  generalize Lru.serve lru call = outcome at hserved hleaves
  cases hserved with
  | touched hold =>
    apply absurd _ ((h.touch call.key).not_mem_hotKeys hleaves)
    exact (h.keys.mem_touch .front).2 hmem
  | enrolled hput hnew =>
    refine ⟨call.key, hput, hnew, ?_⟩
    by_contra hroom
    have hlength := h.length_hotKeys
    have hsize := h.size_le
    apply absurd _ ((h.enroll hpos call.key).not_mem_hotKeys hleaves)
    rw [h.hotKeys_enroll hpos hnew, List.take_of_length_le (by rw [List.length_cons]; omega)]
    exact List.mem_cons_of_mem _ hmem
  | missed hget hnew => exact absurd hmem (h.not_mem_hotKeys hleaves)

/-! ## The list of the latest keys -/

/-- What holds after the accesses of a log, the last in front. The hot keys are the resident keys,
listed by their latest accesses, and they are the latest of all; a put of a new key in a full
separator removes the last of them, and no other call removes a key. -/
structure Recency (capacity : Nat) (log : List κ) (lru : Lru κ) : Prop where
  hotKeys_eq : lru.hotKeys = log.eraseDups.take capacity
  nodup_hotKeys : lru.hotKeys.Nodup
  mem_hotKeys : ∀ key, key ∈ lru.hotKeys ↔ lru.isHot key = true
  byRecency_hotKeys : ByRecency log lru.hotKeys
  put_of_full : ∀ key, lru.isHot key = false → lru.size = capacity →
    ∃ kept victim, lru.hotKeys = kept ++ [victim] ∧ (lru.put key).2.hotKeys = key :: kept
  full_of_leaves : ∀ call other, lru.isHot other = true →
    (Lru.serve lru call).2.isHot other = false →
    ∃ key, call = .put key ∧ lru.isHot key = false ∧ lru.size = capacity

theorem Latest.recency (h : Latest log lru) :
    Recency lru.capacity log lru where
  hotKeys_eq := h.hotKeys_eq
  nodup_hotKeys := h.valid.nodup_hotKeys
  mem_hotKeys _ := h.valid.mem_hotKeys
  byRecency_hotKeys := by
    rw [h.hotKeys_eq]
    exact (byRecency_eraseDups log).sublist (List.take_sublist _ _)
  put_of_full _ hnew hfull := h.valid.put_of_full h.capacity_ne_zero hnew hfull
  full_of_leaves _ _ hother hleaves := h.valid.full_of_leaves h.capacity_ne_zero hother hleaves

omit [LawfulBEq κ] in
/-- All writes to a separator with room for a key are accesses. -/
theorem accesses_puts {start : Lru κ} (hpos : start.capacity ≠ 0) (keys : List κ) :
    serve.accesses start (keys.map .put) = keys := by
  have hserve (state : Lru κ) (call : Call κ) (hne : state.capacity ≠ 0) :
      (serve state call).2.capacity ≠ 0 := by rwa [capacity_serve]
  have hok (state : Lru κ) (hne : state.capacity ≠ 0) :
      ∀ call ∈ keys.map Call.put, (serve state call).1 = .ok () := by
    rw [List.forall_mem_map]
    intro key _
    exact (put_fst key).trans (if_neg hne)
  rw [serve.accesses_eq_map hserve hok hpos, List.map_map]
  exact List.map_id keys

theorem hotKeys_puts {capacity : Nat} (hpos : 1 ≤ capacity) (keys : List κ) :
    (serve.run (empty capacity) (keys.map .put)).hotKeys =
      keys.reverse.eraseDups.take capacity := by
  have hne : (empty capacity : Lru κ).capacity ≠ 0 := Nat.ne_of_gt hpos
  have hlatest := latest_run hpos (keys.map .put)
  rw [hlatest.hotKeys_eq, accesses_puts hne, capacity_run]
  rfl

/-- A separator with room for a key holds the latest keys in every run. After writes alone these
are the last written, and a smaller separator holds the first keys of a larger one. -/
theorem recency_of_run {capacity : Nat} (hpos : 1 ≤ capacity) :
    (∀ calls : List (Call κ), Recency capacity (serve.accesses (empty capacity) calls).reverse
      (serve.run (empty capacity) calls)) ∧
    (∀ keys : List κ, (serve.run (empty capacity) (keys.map .put)).hotKeys =
      keys.reverse.eraseDups.take capacity) ∧
    ∀ larger, capacity ≤ larger → ∀ keys : List κ,
      (serve.run (empty capacity) (keys.map .put)).hotKeys <+:
        (serve.run (empty larger) (keys.map .put)).hotKeys := by
  refine ⟨?_, hotKeys_puts hpos, ?_⟩
  · intro calls
    have hrecency := (latest_run hpos calls).recency
    rwa [capacity_run] at hrecency
  · intro larger hle keys
    rw [hotKeys_puts hpos, hotKeys_puts (hpos.trans hle)]
    exact List.take_prefix_take_left hle

/-- Of four writes to three keys the last two places are left; the third key would have the next. -/
theorem recency_of_run_two :
    1 ≤ 2 ∧ Recency 2 (serve.accesses (empty 2) [.put 1, .get 9, .put 2, .get 1]).reverse
        (serve.run (empty 2) [.put 1, .get 9, .put 2, .get 1]) ∧
      (serve.run (empty (κ := Nat) 2) ([1, 2, 3, 1].map .put)).hotKeys = [1, 3] ∧
      2 ≤ 3 ∧ [1, 3] <+: (serve.run (empty (κ := Nat) 3) ([1, 2, 3, 1].map .put)).hotKeys := by
  have hpos : 1 ≤ 2 := by decide
  have hle : 2 ≤ 3 := by decide
  obtain ⟨hruns, hputs, hlarger⟩ := recency_of_run (κ := Nat) hpos
  have hlatest : (serve.run (empty 2) ([1, 2, 3, 1].map .put)).hotKeys = [1, 3] := hputs _
  have hprefix := hlarger 3 hle [1, 2, 3, 1]
  rw [hlatest] at hprefix
  exact ⟨hpos, hruns _, hlatest, hle, hprefix⟩

end KeyHeat.Lru

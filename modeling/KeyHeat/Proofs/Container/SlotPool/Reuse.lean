import KeyHeat.Proofs.Container.KeyCount
import KeyHeat.Proofs.Container.SlotPool
import KeyHeat.Proofs.Policy.Accesses
import Mathlib.Data.List.Induction
import Mathlib.Order.Bounds.Basic

/-!
# Slot pools reuse the indices of finite maps

Seen from outside, a slot pool is a finite map from indices to values that chooses the index of
each new value itself. It takes the one freed last among those that are vacant, and a new one only
if none is. Hence there are never more slots than were in use at one time.
-/

namespace KeyHeat.SlotPool

variable {α σ : Type}

/-! ## Requests -/

/-- A request to a slot pool. -/
inductive Request (α : Type) where
  | insert (value : α)
  | remove (id : SlotId)
  deriving DecidableEq, Repr

/-- What a request is answered. -/
inductive Reply (α : Type) where
  /-- The index under which the value is stored. -/
  | stored (id : SlotId)
  /-- The value that was removed, if there was one. -/
  | removed (value? : Option α)
  deriving DecidableEq, Repr

section Runs

variable (serve : σ → Request α → Reply α × σ)

/-- The state after some requests, one after the other. -/
def run (state : σ) : List (Request α) → σ
  | [] => state
  | request :: requests => run (serve state request).2 requests

/-- The replies to some requests, in order. -/
def replies (state : σ) : List (Request α) → List (Reply α)
  | [] => []
  | request :: requests =>
    (serve state request).1 :: replies (serve state request).2 requests

theorem run_concat (state : σ) (requests : List (Request α)) (request : Request α) :
    run serve state (requests ++ [request]) = (serve (run serve state requests) request).2 := by
  induction requests generalizing state with
  | nil => rfl
  | cons first requests ih => exact ih _

theorem replies_concat (state : σ) (requests : List (Request α)) (request : Request α) :
    replies serve state (requests ++ [request]) =
      replies serve state requests ++ [(serve (run serve state requests) request).1] := by
  induction requests generalizing state with
  | nil => rfl
  | cons first requests ih => exact congrArg (_ :: ·) (ih _)

end Runs

/-- The answer of a pool to a request, and the pool that it leaves. -/
def serve (pool : SlotPool α) : Request α → Reply α × SlotPool α
  | .insert value => (.stored (pool.insert value).1, (pool.insert value).2)
  | .remove id => (.removed (pool.remove id).1, (pool.remove id).2)

/-! ## Maps with a past -/

/-- A finite map from indices to values, and what its past decides about the next index. -/
structure Registry (α : Type) where
  value? : SlotId → Option α
  /-- The indices that were freed, the latest first; one that was freed twice comes twice. -/
  freed : List SlotId
  /-- The number of indices that have ever been in use, which are those below it. -/
  extent : Nat

namespace Registry

def empty : Registry α := ⟨fun _ ↦ none, [], 0⟩

def isVacant (registry : Registry α) (id : SlotId) : Bool := (registry.value? id).isNone

/-- The index freed last among those that are still vacant, or else the first one never used. -/
def next (registry : Registry α) : SlotId :=
  (registry.freed.find? registry.isVacant).getD registry.extent

/-- The map with `value?` at an index. -/
def assign (registry : Registry α) (id : SlotId) (value? : Option α) : SlotId → Option α :=
  fun other ↦ if other = id then value? else registry.value? other

/-- The answer of a map to a request, and the map that it becomes. -/
def serve (registry : Registry α) : Request α → Reply α × Registry α
  | .insert value =>
    let id := registry.next
    (.stored id, ⟨registry.assign id (some value), registry.freed, max registry.extent (id + 1)⟩)
  | .remove id =>
    match registry.value? id with
    | some value =>
      (.removed (some value), ⟨registry.assign id none, id :: registry.freed, registry.extent⟩)
    | none => (.removed none, registry)

/-- The freed indices that are still vacant, the latest freed first. -/
def vacant (registry : Registry α) : List SlotId :=
  (registry.freed.filter registry.isVacant).eraseDups

theorem nodup_vacant (registry : Registry α) : registry.vacant.Nodup := nodup_eraseDups _

theorem head?_vacant (registry : Registry α) :
    registry.vacant.head? = registry.freed.find? registry.isVacant := by
  rw [← List.head?_filter, vacant]
  cases registry.freed.filter registry.isVacant with
  | nil => rfl
  | cons first rest => rw [List.eraseDups_cons, List.head?_cons, List.head?_cons]

theorem next_eq (registry : Registry α) :
    registry.next = registry.vacant.head?.getD registry.extent := by
  rw [head?_vacant, next]

/-- Under the next index a value takes the place of the first vacant one. -/
theorem vacant_insert (registry : Registry α) (value : α) :
    (registry.serve (.insert value)).2.vacant = registry.vacant.tail := by
  have hvacant (id : SlotId) : (registry.serve (.insert value)).2.isVacant id =
      (!(id == registry.next) && registry.isVacant id) := by
    by_cases heq : id = registry.next
    · simp [serve, isVacant, assign, heq]
    · simp [serve, isVacant, assign, heq]
  have hfilter : (registry.serve (.insert value)).2.vacant =
      registry.vacant.filter (!· == registry.next) := by
    rw [vacant, vacant, ← eraseDups_filter, List.filter_filter, funext hvacant]
    rfl
  have hnodup := registry.nodup_vacant
  rw [hfilter, next_eq]
  cases hlist : registry.vacant with
  | nil => rfl
  | cons first rest =>
    rw [hlist] at hnodup
    rw [List.head?_cons, Option.getD_some]
    calc
      _ = (first :: rest).erase first := (hnodup.erase_eq_filter first).symm
      _ = rest := List.erase_cons_head first rest

/-- An index that is freed is the first of those vacant. -/
theorem vacant_remove {registry : Registry α} {id : SlotId} {value : α}
    (hvalue : registry.value? id = some value) :
    (registry.serve (.remove id)).2.vacant = id :: registry.vacant := by
  have hvacant (other : SlotId) : (registry.serve (.remove id)).2.isVacant other =
      (other == id || registry.isVacant other) := by
    by_cases heq : other = id
    · simp [serve, hvalue, isVacant, assign, heq]
    · simp [serve, hvalue, isVacant, assign, heq]
  have hfreed : (registry.serve (.remove id)).2.freed = id :: registry.freed := by
    simp only [serve, hvalue]
  have hrest : (registry.freed.filter (registry.serve (.remove id)).2.isVacant).filter
      (!· == id) = registry.freed.filter registry.isVacant := by
    rw [List.filter_filter]
    apply List.filter_congr
    intro other _
    rw [hvacant]
    by_cases heq : other = id
    · simp [heq, isVacant, hvalue]
    · rw [beq_false_of_ne heq, Bool.not_false, Bool.true_and, Bool.false_or]
  rw [vacant, hfreed, List.filter_cons_of_pos (by simp [hvacant]), List.eraseDups_cons, hrest,
    vacant]

end Registry

/-! ## Reading a pool -/

theorem Chained.mem_iff_vacant {pool : SlotPool α} {chain : List SlotId} (h : Chained pool chain)
    {id : SlotId} : id ∈ chain ↔ id < pool.slots.size ∧ pool.get? id = none := by
  rw [h.mem_iff, get?]
  by_cases hlt : id < pool.slots.size
  · rw [Array.getElem?_eq_getElem hlt]
    cases pool.slots[id] <;> simp [Slot.value?, hlt]
  · simp [hlt]

/-- Enough steps along a chain meet all of it. -/
theorem Threads.follow_eq {pool : SlotPool α} {head : Option SlotId} {chain : List SlotId}
    (h : Threads pool.slots head chain) {fuel : Nat} (hfuel : chain.length ≤ fuel) :
    vacantChain.follow pool fuel head = chain := by
  induction chain generalizing head fuel with
  | nil =>
    obtain rfl : head = none := h
    cases fuel <;> rfl
  | cons id rest ih =>
    obtain ⟨rfl, next, hslot, hrest⟩ := h
    cases fuel with
    | zero => cases hfuel
    | succ fuel =>
      rw [vacantChain.follow, hslot]
      exact congrArg (id :: ·) (ih hrest (Nat.le_of_succ_le_succ hfuel))

theorem Chained.vacantChain_eq {pool : SlotPool α} {chain : List SlotId}
    (h : Chained pool chain) : pool.vacantChain = chain := by
  apply h.threads.follow_eq
  rw [← h.used_add]
  exact Nat.le_add_left _ _

/-! ## The map that a pool stands for -/

theorem Chained.fst_insert {pool : SlotPool α} {chain : List SlotId} (h : Chained pool chain)
    (value : α) : (pool.insert value).1 = chain.head?.getD pool.slots.size := by
  rw [insert_eq h]
  cases chain <;> rfl

theorem Chained.size_slots_insert {pool : SlotPool α} {chain : List SlotId}
    (h : Chained pool chain) (value : α) :
    (pool.insert value).2.slots.size = max pool.slots.size ((pool.insert value).1 + 1) := by
  rw [insert_eq h]
  cases chain with
  | nil => simp
  | cons id rest =>
    have hlt := h.lt_size List.mem_cons_self
    rw [Array.size_setIfInBounds]
    exact (Nat.max_eq_left hlt).symm

theorem size_slots_erase (pool : SlotPool α) (id : SlotId) :
    (pool.erase id).slots.size = pool.slots.size := by
  cases hget : pool.get? id with
  | none => rw [erase_of_not_used hget]
  | some value => rw [erase_of_used (get?_eq_some_iff.1 hget), Array.size_setIfInBounds]

/-- The pool holds the values of the map, and its chain the freed indices that are vacant. -/
structure Represents (registry : Registry α) (pool : SlotPool α) : Prop where
  chained : Chained pool registry.vacant
  get?_eq : ∀ id, pool.get? id = registry.value? id
  size_slots : pool.slots.size = registry.extent

namespace Represents

variable {registry : Registry α} {pool : SlotPool α}

theorem fst_insert (h : Represents registry pool) (value : α) :
    (pool.insert value).1 = registry.next := by
  rw [h.chained.fst_insert, registry.next_eq, h.size_slots]

theorem insert (h : Represents registry pool) (value : α) :
    Represents (registry.serve (.insert value)).2 (pool.insert value).2 where
  chained := by
    rw [registry.vacant_insert]
    exact h.chained.insert value
  get?_eq id := by
    rw [get?_insert ⟨_, h.chained⟩, h.fst_insert, h.get?_eq]
    rfl
  size_slots := by
    rw [h.chained.size_slots_insert, h.fst_insert, h.size_slots]
    rfl

/-- Removing answers with the value of the map, if it has one there. -/
theorem remove (h : Represents registry pool) (id : SlotId) :
    (registry.serve (.remove id)).1 = .removed (pool.get? id) ∧
      Represents (registry.serve (.remove id)).2 (pool.erase id) := by
  rw [h.get?_eq]
  cases hvalue : registry.value? id with
  | none =>
    have hget := (h.get?_eq id).trans hvalue
    simp only [Registry.serve, hvalue, erase_of_not_used hget, true_and]
    exact h
  | some value =>
    have hget := (h.get?_eq id).trans hvalue
    have hchained := h.chained.erase hget
    rw [← Registry.vacant_remove hvalue] at hchained
    refine ⟨by simp only [Registry.serve, hvalue], hchained, ?_, ?_⟩
    · intro other
      rw [get?_erase, h.get?_eq]
      simp only [Registry.serve, hvalue, Registry.assign]
    · rw [size_slots_erase, h.size_slots]
      simp only [Registry.serve, hvalue]

/-- A pool answers as its map does, and they remain alike. -/
theorem serve (h : Represents registry pool) (request : Request α) :
    (pool.serve request).1 = (registry.serve request).1 ∧
      Represents (registry.serve request).2 (pool.serve request).2 := by
  cases request with
  | insert value => exact ⟨congrArg Reply.stored (h.fst_insert value), h.insert value⟩
  | remove id =>
    rw [SlotPool.serve, remove_eq]
    exact ⟨(h.remove id).1.symm, (h.remove id).2⟩

theorem run (h : Represents registry pool) (requests : List (Request α)) :
    replies SlotPool.serve pool requests = replies Registry.serve registry requests ∧
      Represents (SlotPool.run Registry.serve registry requests)
        (SlotPool.run SlotPool.serve pool requests) := by
  induction requests generalizing registry pool with
  | nil => exact ⟨rfl, h⟩
  | cons request requests ih =>
    obtain ⟨hreply, hnext⟩ := h.serve request
    obtain ⟨hreplies, hlast⟩ := ih hnext
    exact ⟨List.cons_eq_cons.2 ⟨hreply, hreplies⟩, hlast⟩

end Represents

theorem represents_empty : Represents Registry.empty (empty : SlotPool α) where
  chained := ⟨rfl, List.nodup_nil, by simp [Registry.vacant, Registry.empty, empty], rfl⟩
  get?_eq := get?_empty
  size_slots := rfl

/-! ## The number of slots -/

theorem Chained.fst_insert_le {pool : SlotPool α} {chain : List SlotId} (h : Chained pool chain)
    (value : α) : (pool.insert value).1 ≤ pool.slots.size := by
  rw [h.fst_insert]
  cases chain with
  | nil => exact Nat.le_refl _
  | cons id rest => exact (h.lt_size List.mem_cons_self).le

/-- A pool grows only when all of its slots are in use. -/
theorem Chained.size_slots_serve {pool : SlotPool α} {chain : List SlotId}
    (h : Chained pool chain) (request : Request α) :
    (pool.serve request).2.slots.size =
      max (pool.serve request).2.size pool.slots.size := by
  have hused := h.used_add
  cases request with
  | insert value =>
    have hchained := (h.insert value).used_add
    have hgrown := h.size_slots_insert value
    have hsize : (pool.insert value).2.used = pool.used + 1 := size_insert pool value
    rw [h.fst_insert] at hgrown
    simp only [serve, size]
    cases chain with
    | nil =>
      simp only [List.head?_nil, Option.getD_none, List.length_nil] at hgrown hused
      omega
    | cons id rest =>
      have hlt : id + 1 ≤ pool.slots.size := h.lt_size List.mem_cons_self
      simp only [List.head?_cons, Option.getD_some, List.length_cons, Nat.max_eq_left hlt]
        at hgrown hused
      omega
  | remove id =>
    have hle : (pool.erase id).size ≤ pool.size := by
      cases hget : pool.get? id with
      | none => rw [erase_of_not_used hget]
      | some value =>
        rw [size_erase hget]
        exact Nat.sub_le _ _
    simp only [serve, remove_eq, size_slots_erase]
    unfold size at hle ⊢
    omega

/-- The numbers of slots that have been in use at one time. -/
def sizes (requests : List (Request α)) : Set Nat :=
  {size | ∃ earlier, earlier <+: requests ∧ (run serve (empty : SlotPool α) earlier).size = size}

theorem sizes_concat (requests : List (Request α)) (request : Request α) :
    sizes (requests ++ [request]) =
      Insert.insert (run serve empty (requests ++ [request])).size (sizes requests) := by
  ext size
  simp only [sizes, List.prefix_concat_iff, Set.mem_ofPred_eq, Set.mem_insert_iff, or_and_right,
    exists_or, exists_eq_left, eq_comm (a := size)]

theorem chained_run (requests : List (Request α)) :
    Chained (run serve empty requests) (run Registry.serve .empty requests).vacant :=
  (represents_empty.run requests).2.chained

theorem isGreatest_sizes (requests : List (Request α)) :
    IsGreatest (sizes requests) (run serve (empty : SlotPool α) requests).slots.size := by
  induction requests using List.reverseRecOn with
  | nil =>
    refine ⟨⟨[], List.prefix_refl _, rfl⟩, ?_⟩
    rintro size ⟨earlier, hearlier, rfl⟩
    rw [List.prefix_nil.1 hearlier]
    exact Nat.le_refl _
  | append_singleton requests request ih =>
    rw [sizes_concat, run_concat, (chained_run requests).size_slots_serve]
    exact ih.insert _

/-- The indices of the slots are those under which a value was ever stored. -/
theorem stored_mem_replies (requests : List (Request α)) (id : SlotId) :
    .stored id ∈ replies serve empty requests ↔
      id < (run serve (empty : SlotPool α) requests).slots.size := by
  induction requests using List.reverseRecOn with
  | nil => simp [replies, run, empty]
  | append_singleton requests request ih =>
    have hchained := chained_run requests
    rw [replies_concat, run_concat, List.mem_append, ih, List.mem_singleton]
    cases request with
    | insert value =>
      have hle := hchained.fst_insert_le value
      simp only [serve, hchained.size_slots_insert, Reply.stored.injEq, lt_max_iff,
        Nat.lt_succ_iff_lt_or_eq]
      constructor
      · rintro (hlt | heq)
        · exact .inl hlt
        · exact .inr (.inr heq)
      · rintro (hlt | hlt | heq)
        · exact .inl hlt
        · exact .inl (hlt.trans_le hle)
        · exact .inr heq
    | remove other => simp only [serve, remove_eq, size_slots_erase, reduceCtorEq, or_false]

/-! ## What a pool tells -/

theorem mem_ids {pool : SlotPool α} {id : SlotId} :
    id ∈ pool.toList.map (·.1) ↔ (pool.get? id).isSome = true := by
  simp [mem_toList, Option.isSome_iff_exists]

/-- The slots are those in use and those of the chain. -/
theorem Chained.perm_ids {pool : SlotPool α} {chain : List SlotId} (h : Chained pool chain) :
    (pool.toList.map (·.1) ++ chain).Perm (List.range pool.slots.size) := by
  have hdisjoint : (pool.toList.map (·.1)).Disjoint chain := by
    intro id hused hvacant
    rw [mem_ids, (h.mem_iff_vacant.1 hvacant).2] at hused
    cases hused
  rw [List.perm_ext_iff_of_nodup (pool.nodup_ids.append h.nodup hdisjoint) List.nodup_range]
  intro id
  rw [List.mem_append, mem_ids, h.mem_iff_vacant, List.mem_range]
  constructor
  · rintro (hused | hvacant)
    · obtain ⟨value, hvalue⟩ := Option.isSome_iff_exists.1 hused
      exact (Array.getElem?_eq_some_iff.1 (get?_eq_some_iff.1 hvalue)).1
    · exact hvacant.1
  · intro hlt
    cases hget : pool.get? id with
    | none => exact .inr ⟨hlt, rfl⟩
    | some value => exact .inl rfl

theorem Chained.size_eq_ncard {pool : SlotPool α} {chain : List SlotId} (h : Chained pool chain) :
    pool.size = {id | (pool.get? id).isSome = true}.ncard := by
  have hlength := h.perm_ids.length_eq
  rw [List.length_append, List.length_range, ← h.used_add] at hlength
  simp only [← mem_ids]
  rw [ncard_setOf_mem pool.nodup_ids, size]
  omega

/-- What a pool tells after some requests that have made a map of the empty one. -/
structure Tells (requests : List (Request α)) (registry : Registry α) (pool : SlotPool α) :
    Prop where
  get?_eq : ∀ id, pool.get? id = registry.value? id
  contains_eq : ∀ id, pool.contains id = (registry.value? id).isSome
  size_eq : pool.size = {id | (registry.value? id).isSome = true}.ncard
  mem_toList : ∀ id value, (id, value) ∈ pool.toList ↔ registry.value? id = some value
  pairwise_toList : pool.toList.Pairwise fun first second ↦ first.1 < second.1
  /-- The next value is stored under an index that is not in use. -/
  value?_fst_insert : ∀ value, registry.value? (pool.insert value).1 = none
  erase_eq : ∀ id, registry.value? id = none → pool.erase id = pool
  /-- The chain of vacant slots ends, and it meets each of them once. -/
  threads : Threads pool.slots pool.vacantHead pool.vacantChain
  nodup_vacantChain : pool.vacantChain.Nodup
  mem_vacantChain : ∀ id, id ∈ pool.vacantChain ↔
    id < pool.slots.size ∧ registry.value? id = none
  vacantChain_eq : pool.vacantChain = registry.vacant
  /-- The indices that have been in use are those of the slots. -/
  extent_eq : registry.extent = pool.slots.size
  stored_mem : ∀ id, .stored id ∈ replies serve empty requests ↔ id < pool.slots.size
  isGreatest_sizes : IsGreatest (sizes requests) pool.slots.size

/-- Whatever is requested of an empty pool, its replies are those of a map that starts out empty,
and in the end it tells of that map. -/
theorem reuses_of_run (requests : List (Request α)) :
    replies serve (empty : SlotPool α) requests = replies Registry.serve .empty requests ∧
      Tells requests (run Registry.serve .empty requests) (run serve empty requests) := by
  obtain ⟨hreplies, h⟩ := (represents_empty (α := α)).run requests
  have hstored := stored_mem_replies requests
  have hgreatest := isGreatest_sizes requests
  generalize run serve (empty : SlotPool α) requests = pool at h hstored hgreatest
  generalize run Registry.serve (Registry.empty : Registry α) requests = registry at h
  have hchain := h.chained.vacantChain_eq
  refine ⟨hreplies, {
    get?_eq := h.get?_eq
    contains_eq := fun id ↦ congrArg Option.isSome (h.get?_eq id)
    size_eq := ?_
    mem_toList := ?_
    pairwise_toList := pool.pairwise_toList
    value?_fst_insert := ?_
    erase_eq := ?_
    threads := ?_
    nodup_vacantChain := ?_
    mem_vacantChain := ?_
    vacantChain_eq := hchain
    extent_eq := h.size_slots.symm
    stored_mem := hstored
    isGreatest_sizes := hgreatest }⟩
  · simp only [← h.get?_eq]
    exact h.chained.size_eq_ncard
  · intro id value
    rw [SlotPool.mem_toList, h.get?_eq]
  · intro value
    rw [← h.get?_eq]
    exact get?_fst_insert ⟨_, h.chained⟩ value
  · intro id hvacant
    exact erase_of_not_used ((h.get?_eq id).trans hvacant)
  · rw [hchain]
    exact h.chained.threads
  · rw [hchain]
    exact h.chained.nodup
  · intro id
    rw [hchain, h.chained.mem_iff_vacant, h.get?_eq]

/-- The index freed last is taken first. -/
example : replies serve empty [.insert 5, .insert 6, .remove 0, .remove 1, .insert 7, .remove 0] =
    [.stored 0, .stored 1, .removed (some 5), .removed (some 6), .stored 1, .removed none] := by
  decide

end KeyHeat.SlotPool

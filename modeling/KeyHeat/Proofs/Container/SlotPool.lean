import KeyHeat.Container.SlotPool
import Mathlib.Data.List.Perm.Subperm
import Mathlib.Data.List.Range

/-!
# Slot pools as finite maps

A pool is read through `get?`, a finite map from slot indices to values. Each operation changes
that map at one index only. The free slots form a chain that meets every vacant slot exactly once,
which is why an insertion never takes a slot that is in use.
-/

namespace KeyHeat.SlotPool

variable {α : Type}

/-- The vacant slots met from `head` on are `chain`. -/
def Threads (slots : Array (Slot α)) : Option SlotId → List SlotId → Prop
  | head, [] => head = none
  | head, id :: rest =>
    head = some id ∧ ∃ next, slots[id]? = some (.vacant next) ∧ Threads slots next rest

/-- The chain of free slots is `chain`; it meets every vacant slot once, and the slots that are
not on it are the used ones. -/
structure Chained (pool : SlotPool α) (chain : List SlotId) : Prop where
  threads : Threads pool.slots pool.vacantHead chain
  nodup : chain.Nodup
  mem_iff : ∀ id, id ∈ chain ↔ ∃ next, pool.slots[id]? = some (.vacant next)
  used_add : pool.used + chain.length = pool.slots.size

/-- A pool whose free slots are in order. -/
def Valid (pool : SlotPool α) : Prop := ∃ chain, Chained pool chain

theorem threads_congr {slots slots' : Array (Slot α)} {head : Option SlotId}
    {chain : List SlotId} (hagree : ∀ id ∈ chain, slots'[id]? = slots[id]?)
    (h : Threads slots head chain) : Threads slots' head chain := by
  induction chain generalizing head with
  | nil => exact h
  | cons id rest ih =>
    obtain ⟨hhead, next, hslot, hrest⟩ := h
    have hslot' : slots'[id]? = some (.vacant next) := by
      rw [hagree id List.mem_cons_self, hslot]
    have hrest' : ∀ id' ∈ rest, slots'[id']? = slots[id']? := by
      intro id' hid'
      exact hagree id' (List.mem_cons_of_mem _ hid')
    exact ⟨hhead, next, hslot', ih hrest' hrest⟩

theorem Threads.head_eq {slots : Array (Slot α)} {head : Option SlotId} {chain : List SlotId}
    (h : Threads slots head chain) : head = chain.head? := by
  cases chain with
  | nil => exact h
  | cons id rest => exact h.1

theorem Chained.lt_size {pool : SlotPool α} {chain : List SlotId} (h : Chained pool chain)
    {id : SlotId} (hid : id ∈ chain) : id < pool.slots.size := by
  obtain ⟨next, hslot⟩ := (h.mem_iff id).1 hid
  exact (Array.getElem?_eq_some_iff.1 hslot).1

theorem Chained.not_mem_of_used {pool : SlotPool α} {chain : List SlotId}
    (h : Chained pool chain) {id : SlotId} {value : α}
    (hid : pool.slots[id]? = some (.used value)) : id ∉ chain := by
  intro hmem
  obtain ⟨next, hslot⟩ := (h.mem_iff id).1 hmem
  rw [hid] at hslot
  cases hslot

/-- A slot in use leaves room beside the chain, so the count of used slots is positive. -/
theorem Chained.used_pos {pool : SlotPool α} {chain : List SlotId} (h : Chained pool chain)
    {id : SlotId} {value : α} (hid : pool.slots[id]? = some (.used value)) : 0 < pool.used := by
  have hnot := h.not_mem_of_used hid
  have hsub : id :: chain ⊆ List.range pool.slots.size := by
    intro other hother
    rw [List.mem_range]
    rcases List.mem_cons.1 hother with rfl | hmem
    · exact (Array.getElem?_eq_some_iff.1 hid).1
    · exact h.lt_size hmem
  have hlen := (List.nodup_cons.2 ⟨hnot, h.nodup⟩).length_le_of_subset hsub
  rw [List.length_cons, List.length_range, ← h.used_add] at hlen
  omega

/-! ## Reading -/

theorem get?_eq_some_iff {pool : SlotPool α} {id : SlotId} {value : α} :
    pool.get? id = some value ↔ pool.slots[id]? = some (.used value) := by
  unfold get?
  cases hslot : pool.slots[id]? with
  | none => simp
  | some slot => cases slot <;> simp [Slot.value?]

theorem contains_iff {pool : SlotPool α} {id : SlotId} :
    pool.contains id = true ↔ ∃ value, pool.slots[id]? = some (.used value) := by
  rw [contains, Option.isSome_iff_exists]
  simp only [get?_eq_some_iff]

theorem mem_toList {pool : SlotPool α} {id : SlotId} {value : α} :
    (id, value) ∈ pool.toList ↔ pool.get? id = some value := by
  have hmem (slot : Slot α) (index : SlotId) :
      slot.value?.map (index, ·) = some (id, value) ↔ index = id ∧ slot.value? = some value := by
    cases slot.value? <;> simp
  simp only [toList, List.mem_filterMap, Prod.exists, List.mem_zipIdx_iff_getElem?, hmem,
    Array.getElem?_toList]
  rw [get?, Option.bind_eq_some_iff]
  constructor
  · rintro ⟨slot, index, hslot, rfl, hvalue⟩
    exact ⟨slot, hslot, hvalue⟩
  · rintro ⟨slot, hslot, hvalue⟩
    exact ⟨slot, id, hslot, rfl, hvalue⟩

/-- The indices rise from each entry to the next. -/
theorem pairwise_toList (pool : SlotPool α) :
    pool.toList.Pairwise fun first second ↦ first.1 < second.1 := by
  have hindices : pool.slots.toList.zipIdx.Pairwise fun first second ↦ first.2 < second.2 := by
    rw [← List.pairwise_map (f := Prod.snd) (R := (· < ·)), List.zipIdx_map_snd]
    exact List.pairwise_lt_range'
  apply hindices.filterMap
  rintro ⟨slot, index⟩ ⟨slot', index'⟩ hlt entry hentry entry' hentry'
  obtain ⟨value, -, rfl⟩ := Option.map_eq_some_iff.1 hentry
  obtain ⟨value', -, rfl⟩ := Option.map_eq_some_iff.1 hentry'
  exact hlt

theorem nodup_ids (pool : SlotPool α) : (pool.toList.map (·.1)).Nodup := by
  apply List.Pairwise.imp (R := (· < ·)) Nat.ne_of_lt
  rw [List.pairwise_map]
  exact pool.pairwise_toList

@[simp]
theorem get?_empty (id : SlotId) : (empty : SlotPool α).get? id = none := by
  simp [empty, get?]

theorem valid_empty : (empty : SlotPool α).Valid :=
  ⟨[], rfl, List.nodup_nil, by simp [empty], rfl⟩

/-! ## Insertion -/

/-- The slot that an insertion takes, and the pool it leaves. -/
theorem insert_eq {pool : SlotPool α} {chain : List SlotId} (h : Chained pool chain) (value : α) :
    pool.insert value = match chain with
      | [] => (pool.slots.size, ⟨pool.slots.push (.used value), none, pool.used + 1⟩)
      | id :: rest =>
        (id, ⟨pool.slots.setIfInBounds id (.used value), rest.head?, pool.used + 1⟩) := by
  cases chain with
  | nil =>
    have hhead : pool.vacantHead = none := h.threads
    simp [insert, hhead]
  | cons id rest =>
    obtain ⟨hhead, next, hslot, hrest⟩ := h.threads
    simp [insert, hhead, hslot, hrest.head_eq]

theorem get?_fst_insert {pool : SlotPool α} (h : pool.Valid) (value : α) :
    pool.get? (pool.insert value).1 = none := by
  obtain ⟨chain, hchain⟩ := h
  rw [insert_eq hchain]
  cases chain with
  | nil => simp [get?]
  | cons id rest =>
    obtain ⟨next, hslot⟩ := (hchain.mem_iff id).1 List.mem_cons_self
    simp [get?, hslot, Slot.value?]

theorem get?_insert {pool : SlotPool α} (h : pool.Valid) (value : α) (id : SlotId) :
    (pool.insert value).2.get? id =
      if id = (pool.insert value).1 then some value else pool.get? id := by
  obtain ⟨chain, hchain⟩ := h
  rw [insert_eq hchain]
  cases chain with
  | nil =>
    simp only [get?, Array.getElem?_push]
    split_ifs <;> rfl
  | cons first rest =>
    have hlt := hchain.lt_size List.mem_cons_self
    simp only [get?, Array.getElem?_setIfInBounds, eq_comm (a := first)]
    split_ifs <;> rfl

@[simp]
theorem size_insert (pool : SlotPool α) (value : α) :
    (pool.insert value).2.size = pool.size + 1 := by
  unfold insert size
  split <;> rfl

/-- An insertion takes the head off the chain. -/
theorem Chained.insert {pool : SlotPool α} {chain : List SlotId} (h : Chained pool chain)
    (value : α) : Chained (pool.insert value).2 chain.tail := by
  have hused := h.used_add
  rw [insert_eq h]
  cases chain with
  | nil =>
    have hmem (id : SlotId) : id ∈ ([] : List SlotId) ↔
        ∃ next, (pool.slots.push (.used value))[id]? = some (.vacant next) := by
      have hvacant := h.mem_iff id
      simp only [List.not_mem_nil, false_iff, not_exists] at hvacant ⊢
      intro next
      rw [Array.getElem?_push]
      split_ifs
      · simp
      · exact hvacant next
    have hcount : pool.used + 1 + 0 = (pool.slots.push (.used value)).size := by
      rw [Array.size_push, ← hused]
      rfl
    exact ⟨rfl, List.nodup_nil, hmem, hcount⟩
  | cons id rest =>
    obtain ⟨hnot, hnodup⟩ := List.nodup_cons.1 h.nodup
    have hlt := h.lt_size List.mem_cons_self
    obtain ⟨-, next, -, hrest⟩ := h.threads
    rw [hrest.head_eq] at hrest
    have hthreads : Threads (pool.slots.setIfInBounds id (.used value)) rest.head? rest := by
      apply threads_congr _ hrest
      intro other hother
      have hne : id ≠ other := fun heq ↦ hnot (heq ▸ hother)
      simp [hne]
    have hmem (other : SlotId) : other ∈ rest ↔
        ∃ next, (pool.slots.setIfInBounds id (.used value))[other]? = some (.vacant next) := by
      have hvacant := h.mem_iff other
      rw [Array.getElem?_setIfInBounds]
      by_cases hne : id = other
      · subst hne
        simp [hnot, hlt]
      · rw [if_neg hne, ← hvacant, List.mem_cons]
        simp [Ne.symm hne]
    have hcount : pool.used + 1 + rest.length =
        (pool.slots.setIfInBounds id (.used value)).size := by
      rw [Array.size_setIfInBounds, ← hused, List.length_cons]
      omega
    exact ⟨hthreads, hnodup, hmem, hcount⟩

theorem Valid.insert {pool : SlotPool α} (h : pool.Valid) (value : α) :
    (pool.insert value).2.Valid := by
  obtain ⟨chain, hchain⟩ := h
  exact ⟨chain.tail, hchain.insert value⟩

/-! ## Removal -/

theorem erase_of_used {pool : SlotPool α} {id : SlotId} {value : α}
    (hid : pool.slots[id]? = some (.used value)) :
    pool.erase id =
      ⟨pool.slots.setIfInBounds id (.vacant pool.vacantHead), some id, pool.used - 1⟩ := by
  simp only [erase, remove, get?_eq_some_iff.2 hid]

theorem erase_of_not_used {pool : SlotPool α} {id : SlotId} (hid : pool.get? id = none) :
    pool.erase id = pool := by
  simp only [erase, remove, hid]

/-- A removal answers with what a read would have found. -/
theorem remove_eq (pool : SlotPool α) (id : SlotId) :
    pool.remove id = (pool.get? id, pool.erase id) := by
  unfold erase remove
  cases pool.get? id <;> rfl

theorem get?_erase (pool : SlotPool α) (id other : SlotId) :
    (pool.erase id).get? other = if other = id then none else pool.get? other := by
  cases hget : pool.get? id with
  | none =>
    rw [erase_of_not_used hget]
    split_ifs with heq
    · rw [heq, hget]
    · rfl
  | some value =>
    have hslot := get?_eq_some_iff.1 hget
    have hlt := (Array.getElem?_eq_some_iff.1 hslot).1
    rw [erase_of_used hslot]
    simp only [get?, Array.getElem?_setIfInBounds, eq_comm (a := id)]
    split_ifs <;> rfl

theorem size_erase {pool : SlotPool α} {id : SlotId} {value : α}
    (hid : pool.get? id = some value) : (pool.erase id).size = pool.size - 1 := by
  rw [erase_of_used (get?_eq_some_iff.1 hid)]
  rfl

/-- A slot that is freed becomes the head of the chain. -/
theorem Chained.erase {pool : SlotPool α} {chain : List SlotId} (h : Chained pool chain)
    {id : SlotId} {value : α} (hget : pool.get? id = some value) :
    Chained (pool.erase id) (id :: chain) := by
  have hslot := get?_eq_some_iff.1 hget
  have hlt := (Array.getElem?_eq_some_iff.1 hslot).1
  have hnot := h.not_mem_of_used hslot
  have hrest : Threads (pool.slots.setIfInBounds id (.vacant pool.vacantHead)) pool.vacantHead
      chain := by
    apply threads_congr _ h.threads
    intro other hother
    have hne : id ≠ other := fun heq ↦ hnot (heq ▸ hother)
    simp [hne]
  have hmem (other : SlotId) : other ∈ id :: chain ↔ ∃ next,
      (pool.slots.setIfInBounds id (.vacant pool.vacantHead))[other]? =
        some (.vacant next) := by
    have hvacant := h.mem_iff other
    rw [Array.getElem?_setIfInBounds, List.mem_cons]
    by_cases hne : id = other
    · subst hne
      simp [hlt]
    · rw [if_neg hne, ← hvacant]
      simp [Ne.symm hne]
  have hcount : pool.used - 1 + (id :: chain).length =
      (pool.slots.setIfInBounds id (.vacant pool.vacantHead)).size := by
    have hused := h.used_add
    have hpos := h.used_pos hslot
    rw [Array.size_setIfInBounds, List.length_cons]
    omega
  rw [erase_of_used hslot]
  exact ⟨⟨rfl, pool.vacantHead, by simp [hlt], hrest⟩, List.nodup_cons.2 ⟨hnot, h.nodup⟩, hmem,
    hcount⟩

theorem Valid.erase {pool : SlotPool α} (h : pool.Valid) (id : SlotId) :
    (pool.erase id).Valid := by
  cases hget : pool.get? id with
  | none =>
    rw [erase_of_not_used hget]
    exact h
  | some value =>
    obtain ⟨chain, hchain⟩ := h
    exact ⟨id :: chain, hchain.erase hget⟩

/-! ## Replacement -/

theorem get?_modify (pool : SlotPool α) (id other : SlotId) (f : α → α) :
    (pool.modify id f).get? other =
      if other = id then (pool.get? other).map f else pool.get? other := by
  simp only [modify, get?, Array.getElem?_modify, eq_comm (a := id)]
  split_ifs with heq
  · cases pool.slots[other]? with
    | none => rfl
    | some slot => cases slot <;> rfl
  · rfl

@[simp]
theorem size_modify (pool : SlotPool α) (id : SlotId) (f : α → α) :
    (pool.modify id f).size = pool.size := rfl

theorem Valid.modify {pool : SlotPool α} (h : pool.Valid) (id : SlotId) (f : α → α) :
    (pool.modify id f).Valid := by
  obtain ⟨chain, hchain⟩ := h
  have hslots (other : SlotId) (next : Option SlotId) :
      (pool.modify id f).slots[other]? = some (.vacant next) ↔
        pool.slots[other]? = some (.vacant next) := by
    simp only [SlotPool.modify, Array.getElem?_modify]
    split_ifs
    · cases pool.slots[other]? with
      | none => simp
      | some slot => cases slot <;> simp
    · rfl
  have hthreads : Threads (pool.modify id f).slots (pool.modify id f).vacantHead chain := by
    apply threads_congr _ hchain.threads
    intro other hother
    obtain ⟨next, hvacant⟩ := (hchain.mem_iff other).1 hother
    rw [hvacant, hslots, hvacant]
  have hmem (other : SlotId) : other ∈ chain ↔
      ∃ next, (pool.modify id f).slots[other]? = some (.vacant next) := by
    simp only [hslots, hchain.mem_iff]
  have hcount : (pool.modify id f).used + chain.length = (pool.modify id f).slots.size := by
    simpa [SlotPool.modify] using hchain.used_add
  exact ⟨chain, hthreads, hchain.nodup, hmem, hcount⟩

end KeyHeat.SlotPool

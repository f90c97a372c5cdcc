import KeyHeat.Policy.Lru
import KeyHeat.Proofs.Container.KeyedList

/-!
# The least-recently-used policy stays within its capacity

A valid state is a valid list of keys that is not longer than the capacity. Accesses keep it
valid, its self-check finds nothing, and the reported keys are the resident ones.
-/

namespace KeyHeat.Lru

variable {κ : Type} [BEq κ] [Hashable κ]

/-- The resident keys are in order, and no more than there is room for. -/
structure Valid (lru : Lru κ) : Prop where
  keys : lru.keys.Valid
  size_le : lru.size ≤ lru.capacity

variable {lru : Lru κ}

/-! ## Outcomes -/

theorem move_eq (lru : Lru κ) (key : κ) :
    lru.move key = ((lru.keys.move .front key).1, ⟨(lru.keys.move .front key).2, lru.capacity⟩) :=
  rfl

theorem capacity_put (key : κ) : (lru.put key).2.capacity = lru.capacity := by
  unfold put
  rw [move_eq]
  split_ifs
  · rfl
  · cases (lru.keys.move .front key).1 <;> rfl

theorem capacity_get (key : κ) : (lru.get key).2.capacity = lru.capacity := by
  unfold get
  rw [move_eq]
  cases (lru.keys.move .front key).1 <;> rfl

theorem put_fst (key : κ) :
    (lru.put key).1 = if lru.capacity = 0 then .error .capacity else .ok () := by
  unfold put
  rw [move_eq]
  split_ifs
  · rfl
  · cases (lru.keys.move .front key).1 <;> rfl

theorem Valid.nodup_hotKeys (h : lru.Valid) : lru.hotKeys.Nodup := h.keys.nodup_toList

/-! ## Accesses -/

/-- The resident keys once there is a place for a new one. -/
def makeRoom (lru : Lru κ) : KeyedList κ :=
  if lru.keys.length ≥ lru.capacity then (lru.keys.pop .back).2 else lru.keys

variable [LawfulBEq κ]

theorem valid_empty (capacity : Nat) : (empty capacity : Lru κ).Valid :=
  ⟨KeyedList.valid_empty, Nat.zero_le _⟩

omit [LawfulBEq κ] in
theorem touch_eq (lru : Lru κ) (key : κ) :
    lru.touch key = ⟨lru.keys.touch .front key, lru.capacity⟩ := rfl

/-- A key is moved if it is resident. -/
theorem Valid.move_eq (h : lru.Valid) (key : κ) :
    lru.move key = (lru.isHot key, lru.touch key) := by
  rw [Lru.move_eq, h.keys.move_eq, touch_eq, isHot]

theorem Valid.touch_of_not_hot (h : lru.Valid) {key : κ} (hnew : lru.isHot key = false) :
    lru.touch key = lru := by
  have hnot : key ∉ lru.keys.toList := by
    rw [← h.keys.contains_iff]
    exact Bool.eq_false_iff.1 hnew
  rw [touch_eq, KeyedList.touch_of_not_mem h.keys .front hnot]

/-- A write touches a resident key and admits any other. -/
theorem Valid.put_eq (h : lru.Valid) (key : κ) :
    lru.put key =
      if lru.capacity = 0 then (.error .capacity, lru)
      else if lru.isHot key then (.ok (), lru.touch key)
      else (.ok (), lru.enroll key) := by
  unfold Lru.put
  rw [h.move_eq]
  cases hhot : lru.isHot key with
  | true => rfl
  | false => simp only [h.touch_of_not_hot hhot, Bool.false_eq_true, if_false]

/-- A read touches a resident key and misses any other. -/
theorem Valid.get_eq (h : lru.Valid) (key : κ) :
    lru.get key =
      if lru.isHot key then (.ok (), lru.touch key) else (.error .notFound, lru) := by
  unfold Lru.get
  rw [h.move_eq]
  cases hhot : lru.isHot key with
  | true => rfl
  | false => simp only [h.touch_of_not_hot hhot, Bool.false_eq_true, if_false]

theorem Valid.get_fst (h : lru.Valid) (key : κ) :
    (lru.get key).1 = if lru.keys.contains key then .ok () else .error .notFound := by
  rw [h.get_eq, isHot]
  split_ifs <;> rfl

theorem Valid.touch (h : lru.Valid) (key : κ) : (lru.touch key).Valid where
  keys := h.keys.touch .front key
  size_le := by
    calc
      _ = lru.keys.length := h.keys.length_touch .front key
      _ ≤ lru.capacity := h.size_le

omit [LawfulBEq κ] in
theorem enroll_eq (lru : Lru κ) (key : κ) :
    lru.enroll key = ⟨lru.makeRoom.push .front key, lru.capacity⟩ := rfl

/-- The resident keys make room for one more. -/
theorem Valid.makeRoom (h : lru.Valid) (hpos : lru.capacity ≠ 0) :
    lru.makeRoom.Valid ∧ lru.makeRoom.toList.length < lru.capacity := by
  have hsize : lru.keys.toList.length ≤ lru.capacity := by
    rw [← h.keys.length_eq]
    exact h.size_le
  unfold Lru.makeRoom
  rw [h.keys.length_eq]
  split_ifs with hfull
  · rw [h.keys.toList_pop_back, List.length_dropLast]
    exact ⟨h.keys.pop .back, by omega⟩
  · exact ⟨h.keys, Nat.lt_of_not_le hfull⟩

theorem Valid.enroll (h : lru.Valid) (hpos : lru.capacity ≠ 0) (key : κ) :
    (lru.enroll key).Valid := by
  obtain ⟨hvalid, hroom⟩ := h.makeRoom hpos
  have hpushed := hvalid.push .front key
  have hle : (lru.makeRoom.push .front key).length ≤ lru.capacity := by
    calc
      _ = (key :: lru.makeRoom.toList.erase key).length := by
        rw [hpushed.length_eq, hvalid.toList_push, End.cons]
      _ ≤ lru.makeRoom.toList.length + 1 := Nat.succ_le_succ List.length_erase_le
      _ ≤ lru.capacity := hroom
  rw [enroll_eq]
  exact ⟨hpushed, hle⟩

theorem Valid.put (h : lru.Valid) (key : κ) : (lru.put key).2.Valid := by
  rw [h.put_eq]
  split_ifs with hzero
  · exact h
  · exact h.touch key
  · exact h.enroll hzero key

theorem Valid.get (h : lru.Valid) (key : κ) : (lru.get key).2.Valid := by
  rw [h.get_eq]
  split_ifs
  · exact h.touch key
  · exact h

/-! ## Reports -/

theorem Valid.check_eq (h : lru.Valid) : lru.check = .ok () := by
  simp [check, Nat.not_lt.2 h.size_le, h.keys.check_eq]

theorem Valid.mem_hotKeys (h : lru.Valid) {key : κ} :
    key ∈ lru.hotKeys ↔ lru.isHot key = true := h.keys.contains_iff.symm

end KeyHeat.Lru

import KeyHeat.Policy.Lfu
import KeyHeat.Proofs.Container.KeyCount
import KeyHeat.Proofs.Container.KeyedList

/-!
# The buckets of the least-frequently-used policy agree with its frequencies

Each resident key is in the bucket of its frequency and in no other, no bucket is empty, and the
cursor stands on a bucket whenever there are resident keys. So a full separator always finds a
victim, and the policy stays within its capacity.
-/

namespace KeyHeat.Lfu

variable {κ : Type} [BEq κ] [Hashable κ]

/-- The keys in the bucket of a frequency, latest arrival first. -/
def keysAt (buckets : Std.HashMap Nat (KeyedList κ)) (frequency : Nat) : List κ :=
  (buckets[frequency]?.map (·.toList)).getD []

/-- Every key is filed in the bucket of its frequency, and no bucket is empty. -/
structure Filed (buckets : Std.HashMap Nat (KeyedList κ)) (frequencies : Std.HashMap κ Nat) :
    Prop where
  bucket : ∀ (frequency : Nat) (bucket : KeyedList κ), buckets[frequency]? = some bucket →
    bucket.Valid ∧ bucket.toList ≠ []
  mem_iff : ∀ (frequency : Nat) (key : κ), key ∈ keysAt buckets frequency ↔
    frequencies[key]? = some frequency

/-- The buckets are in order, within the capacity, and the cursor stands on one of them. -/
structure Valid (lfu : Lfu κ) : Prop where
  filed : Filed lfu.buckets lfu.frequencies
  size_le : lfu.size ≤ lfu.capacity
  cursor : lfu.size ≠ 0 → lfu.minFrequency ∈ lfu.buckets

/-! ## Outcomes -/

variable {lfu : Lfu κ}

/-- The state in which a new key finds room. -/
def makeRoom (lfu : Lfu κ) : Lfu κ := if lfu.size ≥ lfu.capacity then lfu.evict else lfu

theorem enroll_eq (key : κ) :
    lfu.enroll key = ⟨lfu.makeRoom.frequencies.insert key 1, file lfu.makeRoom.buckets 1 key, 1,
      lfu.makeRoom.capacity⟩ := rfl

theorem capacity_enroll (key : κ) : (lfu.enroll key).capacity = lfu.capacity := by
  rw [enroll_eq, makeRoom]
  split_ifs
  · unfold evict
    cases lfu.victim? <;> rfl
  · rfl

theorem capacity_move (key : κ) : (lfu.move key).2.capacity = lfu.capacity := by
  unfold move
  cases lfu.frequency? key with
  | none => rfl
  | some frequency =>
    dsimp only
    split_ifs <;> rfl

theorem capacity_put (key : κ) : (lfu.put key).2.capacity = lfu.capacity := by
  have hmove := lfu.capacity_move key
  unfold put
  split_ifs
  · rfl
  · generalize lfu.move key = outcome at hmove
    obtain ⟨moved, next⟩ := outcome
    cases moved with
    | true => exact hmove
    | false => exact (capacity_enroll key).trans hmove

theorem capacity_get (key : κ) : (lfu.get key).2.capacity = lfu.capacity := by
  have hmove := lfu.capacity_move key
  unfold get
  generalize lfu.move key = outcome at hmove
  obtain ⟨moved, next⟩ := outcome
  cases moved <;> exact hmove

theorem put_fst (key : κ) :
    (lfu.put key).1 = if lfu.capacity = 0 then .error .capacity else .ok () := by
  unfold put
  split_ifs
  · rfl
  · generalize lfu.move key = outcome
    obtain ⟨moved, next⟩ := outcome
    cases moved <;> rfl

/-! ## Buckets -/

theorem keysAt_of_mem {buckets : Std.HashMap Nat (KeyedList κ)} {frequency : Nat}
    {bucket : KeyedList κ} (h : buckets[frequency]? = some bucket) :
    keysAt buckets frequency = bucket.toList := by
  rw [keysAt, h, Option.map_some, Option.getD_some]

theorem Filed.nodup_keysAt {buckets : Std.HashMap Nat (KeyedList κ)}
    {frequencies : Std.HashMap κ Nat} (h : Filed buckets frequencies) (frequency : Nat) :
    (keysAt buckets frequency).Nodup := by
  rw [keysAt]
  cases hbucket : buckets[frequency]? with
  | none => exact List.nodup_nil
  | some bucket => exact (h.bucket frequency bucket hbucket).1.nodup_toList

theorem Filed.mem_buckets {buckets : Std.HashMap Nat (KeyedList κ)}
    {frequencies : Std.HashMap κ Nat} (h : Filed buckets frequencies) {frequency : Nat} :
    frequency ∈ buckets ↔ keysAt buckets frequency ≠ [] := by
  rw [Std.HashMap.mem_iff_isSome_getElem?, keysAt]
  cases hbucket : buckets[frequency]? with
  | none => simp
  | some bucket => simp [(h.bucket frequency bucket hbucket).2]

theorem Filed.congr {buckets : Std.HashMap Nat (KeyedList κ)}
    {frequencies frequencies' : Std.HashMap κ Nat} (h : Filed buckets frequencies)
    (heq : ∀ key : κ, frequencies'[key]? = frequencies[key]?) : Filed buckets frequencies' where
  bucket := h.bucket
  mem_iff frequency key := by rw [heq, h.mem_iff]

theorem mem_file {buckets : Std.HashMap Nat (KeyedList κ)} {frequency other : Nat} {key : κ} :
    other ∈ file buckets frequency key ↔ other = frequency ∨ other ∈ buckets := by
  rw [file, Std.HashMap.mem_alter]
  by_cases heq : frequency = other
  · simp [heq]
  · simp [heq, Ne.symm heq]

theorem mem_withdraw_of_ne {buckets : Std.HashMap Nat (KeyedList κ)} {frequency other : Nat}
    {key : κ} (hne : other ≠ frequency) :
    other ∈ withdraw buckets frequency key ↔ other ∈ buckets := by
  rw [withdraw, Std.HashMap.mem_alter, if_neg (by simpa using Ne.symm hne)]

/-- A separator with resident keys has a victim, and it is in the bucket under the cursor. -/
theorem Valid.exists_victim (h : lfu.Valid) (hne : lfu.size ≠ 0) :
    ∃ victim, lfu.victim? = some victim ∧ lfu.frequencies[victim]? = some lfu.minFrequency := by
  obtain ⟨bucket, hbucket⟩ := mem_iff_exists_getElem?.1 (h.cursor hne)
  obtain ⟨hvalid, hnil⟩ := h.filed.bucket _ bucket hbucket
  have hlast := List.getLast?_eq_some_getLast hnil
  have hvictim : lfu.victim? = some (bucket.toList.getLast hnil) := by
    rw [victim?, hbucket]
    exact hvalid.peek?_back.trans hlast
  refine ⟨_, hvictim, ?_⟩
  rw [← h.filed.mem_iff, keysAt_of_mem hbucket]
  exact List.mem_of_getLast? hlast

variable [LawfulBEq κ]

theorem Filed.keysAt_file {buckets : Std.HashMap Nat (KeyedList κ)}
    {frequencies : Std.HashMap κ Nat} (h : Filed buckets frequencies) (frequency other : Nat)
    (key : κ) :
    keysAt (file buckets frequency key) other =
      if other = frequency then key :: (keysAt buckets frequency).erase key
      else keysAt buckets other := by
  simp only [keysAt, file, Std.HashMap.getElem?_alter, beq_iff_eq, eq_comm (a := frequency)]
  split_ifs with heq
  · cases hbucket : buckets[frequency]? with
    | none => simp [KeyedList.valid_empty.toList_push, End.cons]
    | some bucket => simp [(h.bucket frequency bucket hbucket).1.toList_push, End.cons]
  · rfl

theorem Filed.file {buckets : Std.HashMap Nat (KeyedList κ)} {frequencies : Std.HashMap κ Nat}
    (h : Filed buckets frequencies) {key : κ} (hnot : frequencies[key]? = none)
    (frequency : Nat) :
    Filed (file buckets frequency key) (frequencies.insert key frequency) where
  bucket other bucket hget := by
    rw [Lfu.file, Std.HashMap.getElem?_alter] at hget
    split_ifs at hget with heq
    · have hvalid : (buckets[frequency]?.getD .empty).Valid := by
        cases hold : buckets[frequency]? with
        | none => exact KeyedList.valid_empty
        | some old => exact (h.bucket frequency old hold).1
      obtain rfl := Option.some.inj hget
      exact ⟨hvalid.push .front key, by simp [hvalid.toList_push, End.cons]⟩
    · exact h.bucket other bucket hget
  mem_iff other key' := by
    have hfresh (frequency : Nat) : key ∉ keysAt buckets frequency := by
      intro hmem
      rw [(h.mem_iff frequency key).1 hmem] at hnot
      cases hnot
    rw [h.keysAt_file, Std.HashMap.getElem?_insert, List.erase_of_not_mem (hfresh frequency)]
    by_cases hkey : key = key'
    · subst hkey
      by_cases heq : other = frequency
      · simp [heq]
      · simp [heq, Ne.symm heq, hfresh other]
    · by_cases heq : other = frequency
      · simp [heq, hkey, Ne.symm hkey, h.mem_iff]
      · simp [heq, hkey, h.mem_iff]

theorem Filed.keysAt_withdraw {buckets : Std.HashMap Nat (KeyedList κ)}
    {frequencies : Std.HashMap κ Nat} (h : Filed buckets frequencies) (frequency other : Nat)
    (key : κ) :
    keysAt (withdraw buckets frequency key) other =
      if other = frequency then (keysAt buckets frequency).erase key
      else keysAt buckets other := by
  simp only [keysAt, withdraw, Std.HashMap.getElem?_alter, beq_iff_eq, eq_comm (a := frequency)]
  split_ifs with heq
  · cases hbucket : buckets[frequency]? with
    | none => simp
    | some bucket =>
      have hvalid := (h.bucket frequency bucket hbucket).1
      have hrest := hvalid.toList_erase key
      by_cases hempty : (bucket.erase key).isEmpty = true
      · have hnil := (hvalid.erase key).isEmpty_iff.1 hempty
        simp [hempty, ← hrest, hnil]
      · simp [hempty, hrest]
  · rfl

theorem Filed.withdraw {buckets : Std.HashMap Nat (KeyedList κ)}
    {frequencies : Std.HashMap κ Nat} (h : Filed buckets frequencies) {key : κ} {frequency : Nat}
    (hget : frequencies[key]? = some frequency) :
    Filed (withdraw buckets frequency key) (frequencies.erase key) where
  bucket other bucket hbucket := by
    rw [Lfu.withdraw, Std.HashMap.getElem?_alter] at hbucket
    split_ifs at hbucket with heq
    · cases hold : buckets[frequency]? with
      | none => simp [hold] at hbucket
      | some old =>
        have hvalid := (h.bucket frequency old hold).1
        simp only [hold] at hbucket
        split_ifs at hbucket with hempty
        obtain rfl := Option.some.inj hbucket
        exact ⟨hvalid.erase key, fun hnil ↦ hempty ((hvalid.erase key).isEmpty_iff.2 hnil)⟩
    · exact h.bucket other bucket hbucket
  mem_iff other key' := by
    rw [h.keysAt_withdraw, Std.HashMap.getElem?_erase]
    by_cases hkey : key = key'
    · subst hkey
      by_cases heq : other = frequency
      · simp [heq, (h.nodup_keysAt frequency).not_mem_erase]
      · simp [heq, h.mem_iff, hget, Ne.symm heq]
    · by_cases heq : other = frequency
      · simp [heq, hkey, List.mem_erase_of_ne (Ne.symm hkey), h.mem_iff]
      · simp [heq, hkey, h.mem_iff]

/-! ## Accesses -/

/-- A key that is filed is linked to a node in the bucket of its frequency. -/
theorem Filed.isLinked {buckets : Std.HashMap Nat (KeyedList κ)}
    {frequencies : Std.HashMap κ Nat} (h : Filed buckets frequencies) {key : κ} {frequency : Nat}
    (hget : frequencies[key]? = some frequency) :
    (buckets[frequency]?).any (·.isLinked key) = true := by
  have hmem := (h.mem_iff frequency key).2 hget
  rw [keysAt] at hmem
  cases hbucket : buckets[frequency]? with
  | none => simp [hbucket] at hmem
  | some bucket =>
    have hvalid := (h.bucket frequency bucket hbucket).1
    rw [hbucket] at hmem
    rw [Option.any_some, hvalid.isLinked_eq]
    exact hvalid.contains_iff.2 hmem

theorem Valid.move_of_some (h : lfu.Valid) {key : κ} {frequency : Nat}
    (hget : lfu.frequencies[key]? = some frequency) :
    lfu.move key = (true, lfu.touch key frequency) := by
  simp only [Lfu.move, frequency?, hget, h.filed.isLinked hget, if_true]

omit [LawfulBEq κ] in
theorem move_of_none {key : κ} (hnot : lfu.frequencies[key]? = none) :
    lfu.move key = (false, lfu) := by
  simp only [Lfu.move, frequency?, hnot]

/-- A write touches a resident key and admits any other. -/
theorem Valid.put_eq (h : lfu.Valid) (key : κ) :
    lfu.put key =
      if lfu.capacity = 0 then (.error .capacity, lfu)
      else match lfu.frequency? key with
        | some frequency => (.ok (), lfu.touch key frequency)
        | none => (.ok (), lfu.enroll key) := by
  unfold Lfu.put frequency?
  cases hget : lfu.frequencies[key]? with
  | none => rw [move_of_none hget]
  | some frequency => rw [h.move_of_some hget]

/-- A read touches a resident key and misses any other. -/
theorem Valid.get_eq (h : lfu.Valid) (key : κ) :
    lfu.get key = match lfu.frequency? key with
      | some frequency => (.ok (), lfu.touch key frequency)
      | none => (.error .notFound, lfu) := by
  unfold Lfu.get frequency?
  cases hget : lfu.frequencies[key]? with
  | none => rw [move_of_none hget]
  | some frequency => rw [h.move_of_some hget]

theorem Valid.get_fst (h : lfu.Valid) (key : κ) :
    (lfu.get key).1 = if lfu.frequencies.contains key then .ok () else .error .notFound := by
  rw [h.get_eq, frequency?, Std.HashMap.contains_eq_isSome_getElem?]
  cases lfu.frequencies[key]? <;> rfl

theorem Valid.touch (h : lfu.Valid) {key : κ} {frequency : Nat}
    (hget : lfu.frequencies[key]? = some frequency) : (lfu.touch key frequency).Valid := by
  have hsize : (lfu.touch key frequency).size = lfu.size :=
    size_insert_of_getElem? hget (frequency + 1)
  have hfiled : Filed (lfu.touch key frequency).buckets (lfu.touch key frequency).frequencies := by
    apply ((h.filed.withdraw hget).file (by simp) (frequency + 1)).congr
    intro key'
    change (lfu.frequencies.insert key (frequency + 1))[key']? = _
    rw [Std.HashMap.getElem?_insert, Std.HashMap.getElem?_insert, Std.HashMap.getElem?_erase]
    split_ifs <;> rfl
  have hle : (lfu.touch key frequency).size ≤ lfu.capacity := by
    rw [hsize]
    exact h.size_le
  refine ⟨hfiled, hle, ?_⟩
  intro hne
  rw [hsize] at hne
  have hcursor := h.cursor hne
  change (if lfu.minFrequency = frequency ∧
      !(Lfu.withdraw lfu.buckets frequency key).contains frequency then frequency + 1
    else lfu.minFrequency) ∈ file (Lfu.withdraw lfu.buckets frequency key) (frequency + 1) key
  rw [mem_file]
  split_ifs with hgone
  · exact .inl rfl
  · right
    by_cases hmin : lfu.minFrequency = frequency
    · simpa [hmin] using hgone
    · exact (mem_withdraw_of_ne hmin).2 hcursor

/-- An eviction removes one key. -/
theorem Valid.evict (h : lfu.Valid) (hne : lfu.size ≠ 0) :
    Filed lfu.evict.buckets lfu.evict.frequencies ∧ lfu.evict.size = lfu.size - 1 ∧
      ∀ key : κ, lfu.frequencies[key]? = none → lfu.evict.frequencies[key]? = none := by
  obtain ⟨victim, hvictim, hget⟩ := h.exists_victim hne
  have hsize : (lfu.frequencies.erase victim).size = lfu.size - 1 := size_erase_of_getElem? hget
  simp only [Lfu.evict, hvictim]
  refine ⟨h.filed.withdraw hget, hsize, ?_⟩
  intro key hnot
  rw [Std.HashMap.getElem?_erase, hnot, ite_self]

theorem Valid.makeRoom (h : lfu.Valid) (hpos : lfu.capacity ≠ 0) :
    Filed lfu.makeRoom.buckets lfu.makeRoom.frequencies ∧ lfu.makeRoom.size < lfu.capacity ∧
      ∀ key : κ, lfu.frequencies[key]? = none → lfu.makeRoom.frequencies[key]? = none := by
  have hsize := h.size_le
  unfold Lfu.makeRoom
  split_ifs with hfull
  · obtain ⟨hfiled, hevict, hkept⟩ := h.evict (by omega)
    exact ⟨hfiled, by omega, hkept⟩
  · exact ⟨h.filed, Nat.lt_of_not_le hfull, fun key hnot ↦ hnot⟩

theorem Valid.enroll (h : lfu.Valid) (hpos : lfu.capacity ≠ 0) {key : κ}
    (hnot : lfu.frequencies[key]? = none) : (lfu.enroll key).Valid := by
  obtain ⟨hfiled, hsize, hkept⟩ := h.makeRoom hpos
  have hle : (lfu.enroll key).size ≤ (lfu.enroll key).capacity := by
    calc
      _ ≤ lfu.makeRoom.size + 1 := Std.HashMap.size_insert_le
      _ ≤ lfu.capacity := hsize
      _ = _ := (capacity_enroll key).symm
  exact ⟨hfiled.file (hkept key hnot) 1, hle, fun _ ↦ mem_file.2 (.inl rfl)⟩

theorem Valid.put (h : lfu.Valid) (key : κ) : (lfu.put key).2.Valid := by
  rw [h.put_eq, frequency?]
  split_ifs with hzero
  · exact h
  · cases hget : lfu.frequencies[key]? with
    | none => exact h.enroll hzero hget
    | some frequency => exact h.touch hget

theorem Valid.get (h : lfu.Valid) (key : κ) : (lfu.get key).2.Valid := by
  rw [h.get_eq, frequency?]
  cases hget : lfu.frequencies[key]? with
  | none => exact h
  | some frequency => exact h.touch hget

theorem valid_empty (capacity minFrequency : Nat) : (empty capacity minFrequency : Lfu κ).Valid :=
  ⟨⟨by simp [empty], by simp [empty, keysAt]⟩, by simp [empty, size], by simp [empty, size]⟩

/-! ## Reports -/

/-- The buckets together hold the resident keys, each once. -/
theorem Filed.perm_keys {buckets : Std.HashMap Nat (KeyedList κ)}
    {frequencies : Std.HashMap κ Nat} (h : Filed buckets frequencies) {order : List Nat}
    (horder : order.Perm buckets.keys) :
    (order.flatMap (keysAt buckets)).Perm frequencies.keys := by
  have hdisjoint : order.Pairwise fun first second ↦
      (keysAt buckets first).Disjoint (keysAt buckets second) := by
    apply (horder.nodup_iff.2 Std.HashMap.nodup_keys).imp
    intro first second hne key hfirst hsecond
    rw [h.mem_iff] at hfirst hsecond
    rw [hfirst] at hsecond
    exact hne (Option.some.inj hsecond)
  apply KeyHeat.perm_keys
  · exact List.nodup_flatMap.2 ⟨fun frequency _ ↦ h.nodup_keysAt frequency, hdisjoint⟩
  · intro key
    rw [List.mem_flatMap, mem_iff_exists_getElem?]
    constructor
    · rintro ⟨frequency, -, hmem⟩
      exact ⟨frequency, (h.mem_iff frequency key).1 hmem⟩
    · rintro ⟨frequency, hget⟩
      have hmem := (h.mem_iff frequency key).2 hget
      refine ⟨frequency, ?_, hmem⟩
      rw [horder.mem_iff, Std.HashMap.mem_keys, h.mem_buckets]
      exact List.ne_nil_of_mem hmem

theorem Filed.fold_length {buckets : Std.HashMap Nat (KeyedList κ)}
    {frequencies : Std.HashMap κ Nat} (h : Filed buckets frequencies) :
    buckets.fold (fun total _ bucket ↦ total + bucket.length) 0 = frequencies.size := by
  have hlength : buckets.toList.map (fun entry ↦ entry.2.length) =
      buckets.toList.map (fun entry ↦ (keysAt buckets entry.1).length) := by
    apply List.map_congr_left
    rintro ⟨frequency, bucket⟩ hentry
    have hbucket := Std.HashMap.mem_toList_iff_getElem?_eq_some.1 hentry
    rw [keysAt_of_mem hbucket, (h.bucket frequency bucket hbucket).1.length_eq]
  calc
    _ = (buckets.toList.map fun entry ↦ entry.2.length).sum := by
      rw [Std.HashMap.fold_eq_foldl_toList, List.sum_eq_foldl_nat, List.foldl_map]
    _ = (buckets.keys.flatMap (keysAt buckets)).length := by
      rw [hlength, ← Std.HashMap.map_fst_toList_eq_keys, List.flatMap_map, List.length_flatMap]
    _ = frequencies.keys.length := (h.perm_keys (List.Perm.refl buckets.keys)).length_eq
    _ = frequencies.size := Std.HashMap.length_keys

theorem Filed.find?_misfiled {buckets : Std.HashMap Nat (KeyedList κ)}
    {frequencies : Std.HashMap κ Nat} (h : Filed buckets frequencies) :
    (frequencies.toList.find? fun (key, frequency) ↦
      !(buckets[frequency]?).any (·.isLinked key)) = none := by
  apply find?_toList_eq_none
  intro key frequency hget
  simp only [h.isLinked hget, Bool.not_true]

theorem Valid.check_eq (h : lfu.Valid) : lfu.check = .ok () := by
  have hcursor : ¬(lfu.size ≠ 0 ∧ !lfu.buckets.contains lfu.minFrequency) := by
    rintro ⟨hne, hnot⟩
    simp [h.cursor hne] at hnot
  have htotal : lfu.buckets.fold (fun total _ bucket ↦ total + bucket.length) 0 = lfu.size :=
    h.filed.fold_length
  rw [check, htotal, h.filed.find?_misfiled, if_neg hcursor]
  simp [Nat.not_lt.2 h.size_le, pure, Except.pure]

theorem Valid.perm_hotKeys (h : lfu.Valid) : lfu.hotKeys.Perm lfu.frequencies.keys :=
  h.filed.perm_keys (List.mergeSort_perm _ _)

theorem Valid.nodup_hotKeys (h : lfu.Valid) : lfu.hotKeys.Nodup :=
  h.perm_hotKeys.nodup_iff.2 Std.HashMap.nodup_keys

theorem Valid.mem_hotKeys (h : lfu.Valid) {key : κ} :
    key ∈ lfu.hotKeys ↔ lfu.isHot key = true := by
  rw [h.perm_hotKeys.mem_iff, Std.HashMap.mem_keys]
  exact Std.HashMap.mem_iff_contains

end KeyHeat.Lfu

import KeyHeat.Container.KeyedList
import KeyHeat.Proofs.Container.KeyCount
import KeyHeat.Proofs.Container.LinkedList

/-!
# Keyed lists as lists of distinct keys

A keyed list is read through `toList`. When its index names exactly the nodes of its linked list,
the keys are distinct, membership and size are those of `toList`, and each operation is the plain
one on lists: moving, adding or removing one key while all others keep their order.
-/

namespace KeyHeat.KeyedList

variable {κ : Type} [BEq κ] [Hashable κ]

/-- The linked list stands for `entries`, and the index leads from each key to its node. -/
structure Holds (keys : KeyedList κ) (entries : List (SlotId × κ)) : Prop where
  list : keys.list.Holds entries
  index_iff : ∀ key id, keys.index[key]? = some id ↔ (id, key) ∈ entries
  size_index : keys.index.size = entries.length

/-- A keyed list whose index and links agree. -/
def Valid (keys : KeyedList κ) : Prop := ∃ entries, keys.Holds entries

theorem Holds.toList_eq {keys : KeyedList κ} {entries : List (SlotId × κ)}
    (h : keys.Holds entries) : keys.toList = entries.map (·.2) := h.list.toList_eq

theorem Holds.nodup_toList {keys : KeyedList κ} {entries : List (SlotId × κ)}
    (h : keys.Holds entries) : keys.toList.Nodup := by
  rw [h.toList_eq]
  apply h.list.nodup.of_map.map_on
  rintro ⟨id, key⟩ hfirst ⟨id', key'⟩ hsecond heq
  obtain rfl : key = key' := heq
  have hid := (h.index_iff key id).2 hfirst
  rw [(h.index_iff key id').2 hsecond] at hid
  cases hid
  rfl

theorem Holds.index_eq_none {keys : KeyedList κ} {entries : List (SlotId × κ)}
    (h : keys.Holds entries) {key : κ} (hnot : key ∉ keys.toList) : keys.index[key]? = none := by
  by_contra hne
  obtain ⟨id, hid⟩ := Option.ne_none_iff_exists'.1 hne
  rw [h.toList_eq] at hnot
  exact hnot (List.mem_map_of_mem (f := (·.2)) ((h.index_iff key id).1 hid))

/-! ## Queries -/

@[simp]
theorem toList_empty : (empty : KeyedList κ).toList = [] := rfl

theorem Valid.nodup_toList {keys : KeyedList κ} (h : keys.Valid) : keys.toList.Nodup :=
  h.elim fun _ hentries ↦ hentries.nodup_toList

theorem Valid.length_eq {keys : KeyedList κ} (h : keys.Valid) :
    keys.length = keys.toList.length := by
  obtain ⟨entries, hentries⟩ := h
  rw [hentries.toList_eq, List.length_map]
  exact hentries.list.length_eq

theorem Valid.isEmpty_iff {keys : KeyedList κ} (h : keys.Valid) :
    keys.isEmpty = true ↔ keys.toList = [] := by
  have hlength := h.length_eq
  rw [← List.length_eq_zero_iff, ← hlength]
  exact beq_iff_eq

theorem Valid.peek?_eq {keys : KeyedList κ} (h : keys.Valid) (side : End) :
    keys.peek? side = (side.orient keys.toList).head? := by
  obtain ⟨entries, hentries⟩ := h
  rw [peek?, hentries.list.peek?_eq, hentries.toList_eq, End.orient_map, List.head?_map]

theorem Valid.peek?_front {keys : KeyedList κ} (h : keys.Valid) :
    keys.peek? .front = keys.toList.head? := h.peek?_eq .front

theorem Valid.peek?_back {keys : KeyedList κ} (h : keys.Valid) :
    keys.peek? .back = keys.toList.getLast? := by
  rw [h.peek?_eq, End.orient, List.head?_reverse]

/-- Taking a key from an end is to remove the one that is there. -/
theorem Valid.pop_eq {keys : KeyedList κ} (h : keys.Valid) (side : End) :
    keys.pop side = (keys.peek? side, match keys.peek? side with
      | some key => keys.erase key
      | none => keys) := by
  obtain ⟨entries, hentries⟩ := h
  have hpeek : keys.peek? side = (side.orient entries).head?.map (·.2) :=
    hentries.list.peek?_eq side
  rcases side.eq_nil_or_cons entries with rfl | ⟨⟨id, key⟩, rest, rfl⟩
  · rw [End.orient_nil, List.head?_nil, Option.map_none] at hpeek
    simp only [KeyedList.pop, hpeek, hentries.list.pop_nil]
  · have hindex : keys.index[key]? = some id := by
      rw [hentries.index_iff, End.mem_cons]
      exact .inl rfl
    rw [End.orient_cons, List.head?_cons, Option.map_some] at hpeek
    simp only [KeyedList.pop, hpeek, hentries.list.pop_cons, KeyedList.erase, KeyedList.remove,
      hindex]
    rfl

theorem Valid.fst_pop {keys : KeyedList κ} (h : keys.Valid) (side : End) :
    (keys.pop side).1 = keys.peek? side := by
  rw [h.pop_eq]

theorem Valid.move_of_not_mem {keys : KeyedList κ} (h : keys.Valid) (side : End) {key : κ}
    (hnot : key ∉ keys.toList) : keys.move side key = (false, keys) := by
  obtain ⟨entries, hentries⟩ := h
  simp only [move, hentries.index_eq_none hnot]

theorem Valid.remove_of_not_mem {keys : KeyedList κ} (h : keys.Valid) {key : κ}
    (hnot : key ∉ keys.toList) : keys.remove key = (false, keys) := by
  obtain ⟨entries, hentries⟩ := h
  simp only [remove, hentries.index_eq_none hnot]

theorem touch_of_not_mem {keys : KeyedList κ} (h : keys.Valid) (side : End) {key : κ}
    (hnot : key ∉ keys.toList) : keys.touch side key = keys :=
  congrArg (·.2) (h.move_of_not_mem side hnot)

theorem erase_of_not_mem {keys : KeyedList κ} (h : keys.Valid) {key : κ}
    (hnot : key ∉ keys.toList) : keys.erase key = keys :=
  congrArg (·.2) (h.remove_of_not_mem hnot)

variable [LawfulBEq κ]

theorem Holds.contains_iff {keys : KeyedList κ} {entries : List (SlotId × κ)}
    (h : keys.Holds entries) {key : κ} : keys.contains key = true ↔ key ∈ keys.toList := by
  rw [contains, Std.HashMap.contains_eq_isSome_getElem?, Option.isSome_iff_exists, h.toList_eq,
    List.mem_map]
  constructor
  · rintro ⟨id, hid⟩
    exact ⟨(id, key), (h.index_iff key id).1 hid, rfl⟩
  · rintro ⟨⟨id, key'⟩, hmem, rfl⟩
    exact ⟨id, (h.index_iff key' id).2 hmem⟩

theorem Valid.contains_iff {keys : KeyedList κ} (h : keys.Valid) {key : κ} :
    keys.contains key = true ↔ key ∈ keys.toList :=
  h.elim fun _ hentries ↦ hentries.contains_iff

/-- The place of a key of the list. -/
theorem Holds.exists_split {keys : KeyedList κ} {entries : List (SlotId × κ)}
    (h : keys.Holds entries) {key : κ} (hmem : key ∈ keys.toList) :
    ∃ before id after, entries = before ++ (id, key) :: after ∧ keys.index[key]? = some id ∧
      keys.toList.erase key = (before ++ after).map (·.2) := by
  have hnodup := h.nodup_toList
  rw [h.toList_eq] at hmem hnodup ⊢
  obtain ⟨⟨id, key'⟩, hentry, rfl⟩ := List.mem_map.1 hmem
  obtain ⟨before, after, rfl⟩ := List.append_of_mem hentry
  refine ⟨before, id, after, rfl, (h.index_iff key' id).2 hentry, ?_⟩
  rw [List.map_append, List.map_cons, List.nodup_middle, List.nodup_cons] at hnodup
  have hbefore : key' ∉ before.map (·.2) := fun hin ↦ hnodup.1 (List.mem_append_left _ hin)
  rw [List.map_append, List.map_cons, List.erase_append_right _ hbefore, List.erase_cons_head,
    List.map_append]

/-- The node that the index names for a key of the list is there to be moved. -/
theorem Valid.move_of_mem {keys : KeyedList κ} (h : keys.Valid) (side : End) {key : κ}
    (hmem : key ∈ keys.toList) : keys.move side key = (true, keys.touch side key) := by
  obtain ⟨entries, hentries⟩ := h
  obtain ⟨before, id, after, rfl, hindex, -⟩ := hentries.exists_split hmem
  simp only [touch, move, hindex, hentries.list.move_of_split]

theorem Valid.remove_of_mem {keys : KeyedList κ} (h : keys.Valid) {key : κ}
    (hmem : key ∈ keys.toList) : keys.remove key = (true, keys.erase key) := by
  obtain ⟨entries, hentries⟩ := h
  obtain ⟨before, id, after, rfl, hindex, -⟩ := hentries.exists_split hmem
  simp only [erase, remove, hindex, LinkedList.remove_eq, hentries.list.get?_of_split,
    Option.isSome_some]

/-- A move succeeds exactly for the keys of the list. -/
theorem Valid.move_eq {keys : KeyedList κ} (h : keys.Valid) (side : End) (key : κ) :
    keys.move side key = (keys.contains key, keys.touch side key) := by
  by_cases hmem : key ∈ keys.toList
  · rw [h.move_of_mem side hmem, h.contains_iff.2 hmem]
  · rw [touch_of_not_mem h side hmem, h.move_of_not_mem side hmem,
      Bool.eq_false_iff.2 (mt h.contains_iff.1 hmem)]

/-- A removal succeeds exactly for the keys of the list. -/
theorem Valid.remove_eq {keys : KeyedList κ} (h : keys.Valid) (key : κ) :
    keys.remove key = (keys.contains key, keys.erase key) := by
  by_cases hmem : key ∈ keys.toList
  · rw [h.remove_of_mem hmem, h.contains_iff.2 hmem]
  · rw [erase_of_not_mem h hmem, h.remove_of_not_mem hmem,
      Bool.eq_false_iff.2 (mt h.contains_iff.1 hmem)]

/-- The index leads from the keys of the list, and from no others, to their own nodes. -/
theorem Valid.isLinked_eq {keys : KeyedList κ} (h : keys.Valid) (key : κ) :
    keys.isLinked key = keys.contains key := by
  by_cases hmem : key ∈ keys.toList
  · rw [h.contains_iff.2 hmem]
    obtain ⟨entries, hentries⟩ := h
    obtain ⟨before, id, after, rfl, hindex, -⟩ := hentries.exists_split hmem
    simp [isLinked, hindex, hentries.list.get?_of_split]
  · rw [Bool.eq_false_iff.2 (mt h.contains_iff.1 hmem)]
    obtain ⟨entries, hentries⟩ := h
    simp [isLinked, hentries.index_eq_none hmem]

/-! ## Operations -/

@[simp]
theorem valid_empty : (empty : KeyedList κ).Valid :=
  ⟨[], LinkedList.holds_empty, by simp [empty], by simp [empty]⟩

/-- Moving a key to an end keeps the order of the others. -/
theorem Valid.touch_of_mem {keys : KeyedList κ} (h : keys.Valid) (side : End) {key : κ}
    (hmem : key ∈ keys.toList) :
    (keys.touch side key).Valid ∧
      (keys.touch side key).toList = side.cons key (keys.toList.erase key) := by
  obtain ⟨entries, hentries⟩ := h
  obtain ⟨before, id, after, rfl, hindex, herase⟩ := hentries.exists_split hmem
  have htouch : keys.touch side key = ⟨keys.list.relink id side, keys.index⟩ := by
    simp only [touch, move, hindex]
    rfl
  have hindexed (key' : κ) (id' : SlotId) : keys.index[key']? = some id' ↔
      (id', key') ∈ side.cons (id, key) (before ++ after) := by
    rw [hentries.index_iff]
    simp only [End.mem_cons, List.mem_append, List.mem_cons]
    tauto
  have hsize : keys.index.size = (side.cons (id, key) (before ++ after)).length := by
    rw [hentries.size_index, End.length_cons]
    simp
    omega
  have hholds : (keys.touch side key).Holds (side.cons (id, key) (before ++ after)) := by
    rw [htouch]
    exact ⟨hentries.list.relink side, hindexed, hsize⟩
  exact ⟨⟨_, hholds⟩, by rw [hholds.toList_eq, End.map_cons, herase]⟩

theorem Valid.erase_eq {keys : KeyedList κ} (h : keys.Valid) (key : κ) :
    (keys.erase key).Valid ∧ (keys.erase key).toList = keys.toList.erase key := by
  by_cases hmem : key ∈ keys.toList
  · obtain ⟨entries, hentries⟩ := h
    obtain ⟨before, id, after, rfl, hindex, herase⟩ := hentries.exists_split hmem
    have heq : keys.erase key = ⟨keys.list.erase id, keys.index.erase key⟩ := by
      simp only [KeyedList.erase, KeyedList.remove, hindex]
      rfl
    have hnot : key ∉ (before ++ after).map (·.2) := by
      rw [← herase]
      exact hentries.nodup_toList.not_mem_erase
    have hindexed (key' : κ) (id' : SlotId) :
        (keys.index.erase key)[key']? = some id' ↔ (id', key') ∈ before ++ after := by
      rw [Std.HashMap.getElem?_erase]
      by_cases hkey : key = key'
      · subst hkey
        simp only [beq_self_eq_true, if_true, reduceCtorEq, false_iff]
        exact fun hentry ↦ hnot (List.mem_map_of_mem (f := (·.2)) hentry)
      · rw [if_neg (by simpa using hkey), hentries.index_iff]
        simp only [List.mem_append, List.mem_cons, Prod.mk.injEq, Ne.symm hkey, and_false,
          false_or]
    have hsize : (keys.index.erase key).size = (before ++ after).length := by
      rw [size_erase_of_getElem? hindex, hentries.size_index]
      simp
    have hholds : (keys.erase key).Holds (before ++ after) := by
      rw [heq]
      exact ⟨hentries.list.erase, hindexed, hsize⟩
    exact ⟨⟨_, hholds⟩, by rw [hholds.toList_eq, herase]⟩
  · rw [erase_of_not_mem h hmem, List.erase_of_not_mem hmem]
    exact ⟨h, rfl⟩

theorem Valid.push_eq {keys : KeyedList κ} (h : keys.Valid) (side : End) (key : κ) :
    (keys.push side key).Valid ∧
      (keys.push side key).toList = side.cons key (keys.toList.erase key) := by
  by_cases hmem : key ∈ keys.toList
  · rw [push, h.move_of_mem side hmem]
    exact h.touch_of_mem side hmem
  · have hmove := h.move_of_not_mem side hmem
    obtain ⟨entries, hentries⟩ := h
    have hindex := hentries.index_eq_none hmem
    obtain ⟨hfresh, hlist⟩ := hentries.list.push side key
    have heq : keys.push side key =
        ⟨(keys.list.push side key).2, keys.index.insert key (keys.list.push side key).1⟩ := by
      simp only [push, hmove, Bool.false_eq_true, if_false]
    have hindexed (key' : κ) (id' : SlotId) :
        (keys.index.insert key (keys.list.push side key).1)[key']? = some id' ↔
          (id', key') ∈ side.cons ((keys.list.push side key).1, key) entries := by
      rw [Std.HashMap.getElem?_insert, End.mem_cons, Prod.mk.injEq]
      by_cases hkey : key = key'
      · subst hkey
        have hnot : (id', key) ∉ entries := by
          intro hentry
          rw [(hentries.index_iff key id').2 hentry] at hindex
          cases hindex
        simp [hnot, eq_comm]
      · rw [if_neg (by simpa using hkey), hentries.index_iff]
        simp [Ne.symm hkey]
    have hsize : (keys.index.insert key (keys.list.push side key).1).size =
        (side.cons ((keys.list.push side key).1, key) entries).length := by
      rw [Std.HashMap.size_insert, if_neg (not_mem_of_getElem? hindex), hentries.size_index,
        End.length_cons]
    have hholds : (keys.push side key).Holds
        (side.cons ((keys.list.push side key).1, key) entries) := by
      rw [heq]
      exact ⟨hlist, hindexed, hsize⟩
    refine ⟨⟨_, hholds⟩, ?_⟩
    rw [hholds.toList_eq, End.map_cons, List.erase_of_not_mem hmem, hentries.toList_eq]

@[simp]
theorem Valid.push {keys : KeyedList κ} (h : keys.Valid) (side : End) (key : κ) :
    (keys.push side key).Valid := (h.push_eq side key).1

@[simp]
theorem Valid.toList_push {keys : KeyedList κ} (h : keys.Valid) (side : End) (key : κ) :
    (keys.push side key).toList = side.cons key (keys.toList.erase key) := (h.push_eq side key).2

theorem Valid.toList_push_of_not_mem {keys : KeyedList κ} (h : keys.Valid) (side : End) {key : κ}
    (hnot : key ∉ keys.toList) : (keys.push side key).toList = side.cons key keys.toList := by
  rw [h.toList_push, List.erase_of_not_mem hnot]

@[simp]
theorem Valid.touch {keys : KeyedList κ} (h : keys.Valid) (side : End) (key : κ) :
    (keys.touch side key).Valid := by
  by_cases hmem : key ∈ keys.toList
  · exact (h.touch_of_mem side hmem).1
  · rw [touch_of_not_mem h side hmem]
    exact h

theorem Valid.toList_touch {keys : KeyedList κ} (h : keys.Valid) (side : End) {key : κ}
    (hmem : key ∈ keys.toList) :
    (keys.touch side key).toList = side.cons key (keys.toList.erase key) :=
  (h.touch_of_mem side hmem).2

@[simp]
theorem Valid.erase {keys : KeyedList κ} (h : keys.Valid) (key : κ) : (keys.erase key).Valid :=
  (h.erase_eq key).1

@[simp]
theorem Valid.toList_erase {keys : KeyedList κ} (h : keys.Valid) (key : κ) :
    (keys.erase key).toList = keys.toList.erase key := (h.erase_eq key).2

/-! ## Members and length -/

theorem Valid.mem_push {keys : KeyedList κ} (h : keys.Valid) (side : End) {key other : κ} :
    other ∈ (keys.push side key).toList ↔ other = key ∨ other ∈ keys.toList := by
  rw [h.toList_push, End.mem_cons, h.nodup_toList.mem_erase_iff]
  tauto

theorem Valid.mem_push_of_ne {keys : KeyedList κ} (h : keys.Valid) (side : End) {key other : κ}
    (hne : other ≠ key) : other ∈ (keys.push side key).toList ↔ other ∈ keys.toList := by
  rw [h.mem_push, or_iff_right hne]

theorem Valid.mem_erase {keys : KeyedList κ} (h : keys.Valid) {key other : κ} :
    other ∈ (keys.erase key).toList ↔ other ≠ key ∧ other ∈ keys.toList := by
  rw [h.toList_erase, h.nodup_toList.mem_erase_iff]

theorem Valid.mem_erase_of_ne {keys : KeyedList κ} (h : keys.Valid) {key other : κ}
    (hne : other ≠ key) : other ∈ (keys.erase key).toList ↔ other ∈ keys.toList := by
  rw [h.mem_erase, and_iff_right hne]

theorem Valid.mem_touch {keys : KeyedList κ} (h : keys.Valid) (side : End) {key other : κ} :
    other ∈ (keys.touch side key).toList ↔ other ∈ keys.toList := by
  by_cases hmem : key ∈ keys.toList
  · rw [h.toList_touch side hmem, End.mem_cons, h.nodup_toList.mem_erase_iff]
    by_cases heq : other = key
    · simp [heq, hmem]
    · simp [heq]
  · rw [touch_of_not_mem h side hmem]

theorem Valid.length_push {keys : KeyedList κ} (h : keys.Valid) (side : End) {key : κ}
    (hnot : key ∉ keys.toList) : (keys.push side key).length = keys.length + 1 := by
  calc
    _ = (side.cons key (keys.toList.erase key)).length := by
      rw [(h.push side key).length_eq, h.toList_push]
    _ = keys.toList.length + 1 := by rw [End.length_cons, List.erase_of_not_mem hnot]
    _ = _ := by rw [h.length_eq]

theorem Valid.length_erase {keys : KeyedList κ} (h : keys.Valid) {key : κ}
    (hmem : key ∈ keys.toList) : (keys.erase key).length + 1 = keys.length := by
  rw [(h.erase key).length_eq, h.toList_erase, List.length_erase_add_one hmem, h.length_eq]

theorem Valid.length_touch {keys : KeyedList κ} (h : keys.Valid) (side : End) (key : κ) :
    (keys.touch side key).length = keys.length := by
  by_cases hmem : key ∈ keys.toList
  · rw [(h.touch side key).length_eq, h.toList_touch side hmem, End.length_cons,
      List.length_erase_add_one hmem, h.length_eq]
  · rw [touch_of_not_mem h side hmem]

/-! ## Lists without a common key -/

/-- No key is in both lists. -/
def Apart (first second : KeyedList κ) : Prop := ∀ key ∈ first.toList, key ∉ second.toList

omit [LawfulBEq κ] in
theorem Apart.symm {first second : KeyedList κ} (h : first.Apart second) : second.Apart first :=
  fun key hsecond hfirst ↦ h key hfirst hsecond

theorem Apart.push {first second : KeyedList κ} (h : first.Apart second) (hfirst : first.Valid)
    (side : End) {key : κ} (hnot : key ∉ second.toList) : (first.push side key).Apart second := by
  intro other hmem
  rcases (hfirst.mem_push side).1 hmem with rfl | hold
  · exact hnot
  · exact h other hold

theorem Apart.erase {first second : KeyedList κ} (h : first.Apart second) (hfirst : first.Valid)
    (key : κ) : (first.erase key).Apart second :=
  fun other hmem ↦ h other (hfirst.mem_erase.1 hmem).2

theorem Apart.touch {first second : KeyedList κ} (h : first.Apart second) (hfirst : first.Valid)
    (side : End) (key : κ) : (first.touch side key).Apart second :=
  fun other hmem ↦ h other ((hfirst.mem_touch side).1 hmem)

/-! ## Taking keys from the ends -/

theorem Valid.pop {keys : KeyedList κ} (h : keys.Valid) (side : End) :
    (keys.pop side).2.Valid := by
  rw [h.pop_eq]
  cases keys.peek? side with
  | none => exact h
  | some key => exact h.erase key

/-- The key at the front is taken away. -/
theorem Valid.toList_pop_front {keys : KeyedList κ} (h : keys.Valid) :
    (keys.pop .front).2.toList = keys.toList.tail := by
  rw [h.pop_eq, h.peek?_front]
  cases hlist : keys.toList with
  | nil => exact hlist
  | cons key rest =>
    dsimp only [List.head?_cons]
    rw [h.toList_erase, hlist, List.erase_cons_head, List.tail_cons]

/-- The key at the back is taken away. -/
theorem Valid.toList_pop_back {keys : KeyedList κ} (h : keys.Valid) :
    (keys.pop .back).2.toList = keys.toList.dropLast := by
  rw [h.pop_eq, h.peek?_back]
  cases hlast : keys.toList.getLast? with
  | none =>
    dsimp only
    rw [List.getLast?_eq_none_iff.1 hlast, List.dropLast_nil]
  | some key =>
    dsimp only
    rw [h.toList_erase, erase_eq_dropLast h.nodup_toList hlast]

theorem Valid.shrink_eq {keys : KeyedList κ} (h : keys.Valid) (excess : Nat) :
    (trim.shrink keys excess).Valid ∧
      (trim.shrink keys excess).toList = keys.toList.take (keys.toList.length - excess) := by
  induction excess generalizing keys with
  | zero => exact ⟨h, by simp [trim.shrink]⟩
  | succ excess ih =>
    obtain ⟨hvalid, hlist⟩ := ih (h.pop .back)
    rw [trim.shrink]
    refine ⟨hvalid, ?_⟩
    rw [hlist, h.toList_pop_back, List.length_dropLast, List.dropLast_eq_take, List.take_take]
    congr 1
    omega

theorem Valid.trim {keys : KeyedList κ} (h : keys.Valid) (bound : Nat) :
    (keys.trim bound).Valid := (h.shrink_eq _).1

theorem Valid.toList_trim {keys : KeyedList κ} (h : keys.Valid) (bound : Nat) :
    (keys.trim bound).toList = keys.toList.take bound := by
  rw [KeyedList.trim, (h.shrink_eq _).2, h.length_eq]
  rcases Nat.le_total bound keys.toList.length with hle | hle
  · rw [Nat.sub_sub_self hle]
  · rw [Nat.sub_eq_zero_of_le hle, Nat.sub_zero, List.take_length, List.take_of_length_le hle]

/-! ## The self-check -/

theorem Holds.any_foreign {keys : KeyedList κ} {entries : List (SlotId × κ)}
    (h : keys.Holds entries) :
    (keys.index.toList.any fun (key, id) ↦ !(keys.list.get? id).any (· == key)) = false := by
  rw [List.any_eq_false]
  rintro ⟨key, id⟩ hmem
  have hid := (h.index_iff key id).1 (Std.HashMap.mem_toList_iff_getElem?_eq_some.1 hmem)
  simp [h.list.get?_eq_some_iff.2 hid]

theorem Valid.check_eq {keys : KeyedList κ} (h : keys.Valid) : keys.check = .ok () := by
  obtain ⟨entries, hentries⟩ := h
  have hsize : keys.length = keys.index.size := by
    rw [hentries.size_index]
    exact hentries.list.length_eq
  simp [check, hentries.list.checkLinks_eq, hsize, hentries.any_foreign, bind, Except.bind, pure,
    Except.pure]

end KeyHeat.KeyedList

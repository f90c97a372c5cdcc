import Mathlib.Data.List.Permutation
import Mathlib.Data.Set.Card
import Std.Data.DHashMap.Internal.WF
import Std.Data.HashMap.Lemmas

/-!
# Counting the keys of a map

What a look-up finds tells which keys a map has, and how its size changes. A list without
repetitions that has exactly the keys of a map is as long as the map is large. This is how sizes
kept beside several lists of keys are compared with the size of their index.
-/

namespace KeyHeat

variable {κ β : Type} [BEq κ] [Hashable κ] {map : Std.HashMap κ β}

theorem values_eq (map : Std.HashMap κ β) : map.values = map.toList.map (·.2) := by
  change map.inner.inner.values = (Std.DHashMap.Raw.Const.toList map.inner.inner).map (·.2)
  rw [Std.DHashMap.Internal.Raw.values_eq_values_toListModel,
    Std.DHashMap.Internal.Raw.Const.toList_eq_toListModel_map, Std.Internal.List.values_eq_map,
    List.map_map]
  rfl

variable [LawfulBEq κ]

/-! ## Keys and look-ups -/

theorem mem_iff_exists_getElem? {key : κ} : key ∈ map ↔ ∃ value, map[key]? = some value := by
  rw [Std.HashMap.mem_iff_isSome_getElem?, Option.isSome_iff_exists]

theorem mem_of_getElem? {key : κ} {value : β} (hget : map[key]? = some value) : key ∈ map :=
  mem_iff_exists_getElem?.2 ⟨value, hget⟩

theorem not_mem_of_getElem? {key : κ} (hget : map[key]? = none) : key ∉ map := by
  rw [Std.HashMap.mem_iff_isSome_getElem?, hget]
  exact Bool.false_ne_true

theorem size_pos_of_mem {key : κ} (hmem : key ∈ map) : 0 < map.size := by
  rw [← Std.HashMap.length_keys]
  exact List.length_pos_of_mem (Std.HashMap.mem_keys.2 hmem)

theorem getElem?_insert_of_ne (map : Std.HashMap κ β) (value : β) {key other : κ}
    (hne : other ≠ key) : (map.insert key value)[other]? = map[other]? := by
  rw [Std.HashMap.getElem?_insert, if_neg (by simpa using hne.symm)]

theorem getElem?_erase_of_ne (map : Std.HashMap κ β) {key other : κ} (hne : other ≠ key) :
    (map.erase key)[other]? = map[other]? := by
  rw [Std.HashMap.getElem?_erase, if_neg (by simpa using hne.symm)]

theorem size_insert_of_getElem? {key : κ} {value : β} (hget : map[key]? = some value) (new : β) :
    (map.insert key new).size = map.size := by
  rw [Std.HashMap.size_insert, if_pos (mem_of_getElem? hget)]

theorem size_erase_of_getElem? {key : κ} {value : β} (hget : map[key]? = some value) :
    (map.erase key).size = map.size - 1 := by
  rw [Std.HashMap.size_erase, if_pos (mem_of_getElem? hget)]

/-! ## Lists of keys -/

theorem perm_keys {keys : List κ} (hnodup : keys.Nodup) (hmem : ∀ key, key ∈ keys ↔ key ∈ map) :
    keys.Perm map.keys := by
  apply (List.perm_ext_iff_of_nodup hnodup Std.HashMap.nodup_keys).2
  intro key
  rw [hmem, Std.HashMap.mem_keys]

theorem length_eq_size {keys : List κ} (hnodup : keys.Nodup)
    (hmem : ∀ key, key ∈ keys ↔ key ∈ map) : keys.length = map.size := by
  rw [(perm_keys hnodup hmem).length_eq, Std.HashMap.length_keys]

theorem ncard_setOf_mem {α : Type} {xs : List α} (hnodup : xs.Nodup) :
    {x | x ∈ xs}.ncard = xs.length := by
  classical
  rw [← List.coe_toFinset, Set.ncard_coe_finset, List.toFinset_card_of_nodup hnodup]

/-- A search through the entries of a map fails if it would fail at each key. -/
theorem find?_toList_eq_none {test : κ × β → Bool}
    (h : ∀ key value, map[key]? = some value → test (key, value) = false) :
    map.toList.find? test = none := by
  rw [List.find?_eq_none]
  rintro ⟨key, value⟩ hmem
  simp [h key value (Std.HashMap.mem_toList_iff_getElem?_eq_some.1 hmem)]

end KeyHeat

import KeyHeat.Container.MinHeap
import Mathlib.Data.List.Perm.Basic

/-!
# The order of a heap

In a heap-ordered tree nothing is below a greater element. Merging keeps the elements and the
order, for every comparison that is total and transitive, so the top of a heap is least in it.
-/

namespace KeyHeat

variable {α : Type} {le : α → α → Bool}

/-! ## Trees -/

namespace LeftistTree

open scoped List

theorem length_toList (tree : LeftistTree α) : tree.toList.length = tree.count := by
  induction tree with
  | leaf => rfl
  | node rank value left right ihLeft ihRight =>
    rw [toList, count, List.length_cons, List.length_append, ihLeft, ihRight]

/-- No element is below a greater one. -/
def Ordered (le : α → α → Bool) : LeftistTree α → Prop
  | leaf => True
  | node _ value left right =>
    (∀ other ∈ left.toList ++ right.toList, le value other = true) ∧
      left.Ordered le ∧ right.Ordered le

theorem perm_join (value : α) (a b : LeftistTree α) :
    (join value a b).toList.Perm (value :: (a.toList ++ b.toList)) := by
  unfold join
  split_ifs
  · exact List.Perm.refl _
  · exact List.perm_append_comm.cons value

theorem perm_merge (le : α → α → Bool) (a b : LeftistTree α) :
    (merge le a b).toList.Perm (a.toList ++ b.toList) := by
  fun_induction merge le a b with
  | case1 b => exact List.Perm.refl _
  | case2 a => simp [toList]
  | case3 i x l r j y l' r' _ ih =>
    calc
      (join x l (merge le r (node j y l' r'))).toList
      _ ~ x :: (l.toList ++ (merge le r (node j y l' r')).toList) := perm_join _ _ _
      _ ~ x :: (l.toList ++ (r.toList ++ (node j y l' r').toList)) := (ih.append_left _).cons x
      _ = (node i x l r).toList ++ (node j y l' r').toList := by simp [toList]
  | case4 i x l r j y l' r' _ ih =>
    calc
      (join y l' (merge le (node i x l r) r')).toList
      _ ~ y :: (l'.toList ++ (merge le (node i x l r) r').toList) := perm_join _ _ _
      _ ~ y :: (l'.toList ++ ((node i x l r).toList ++ r'.toList)) := (ih.append_left _).cons y
      _ ~ y :: ((node i x l r).toList ++ (l'.toList ++ r'.toList)) :=
        (List.perm_append_comm_assoc _ _ _).cons y
      _ ~ (node i x l r).toList ++ (node j y l' r').toList := List.perm_middle.symm

theorem Ordered.join {value : α} {a b : LeftistTree α} (ha : a.Ordered le) (hb : b.Ordered le)
    (hle : ∀ other ∈ a.toList ++ b.toList, le value other = true) :
    (join value a b).Ordered le := by
  unfold LeftistTree.join
  split_ifs
  · exact ⟨hle, ha, hb⟩
  · refine ⟨?_, hb, ha⟩
    intro other hother
    exact hle other (List.perm_append_comm.mem_iff.1 hother)

section Merge

variable (htrans : ∀ a b c, le a b = true → le b c = true → le a c = true)
  (htotal : ∀ a b, le a b = true ∨ le b a = true)

include htotal in
theorem Ordered.le_of_mem {rank : Nat} {value : α} {left right : LeftistTree α}
    (h : (node rank value left right).Ordered le) :
    ∀ other ∈ (node rank value left right).toList, le value other = true := by
  intro other hother
  rcases List.mem_cons.1 hother with rfl | hbelow
  · exact (htotal other other).elim id id
  · exact h.1 other hbelow

include htrans htotal in
theorem Ordered.merge {a b : LeftistTree α} (ha : a.Ordered le) (hb : b.Ordered le) :
    (merge le a b).Ordered le := by
  fun_induction LeftistTree.merge le a b with
  | case1 b => exact hb
  | case2 a => exact ha
  | case3 i x l r j y l' r' hxy ih =>
    apply ha.2.1.join (ih ha.2.2 hb)
    intro other hother
    rw [List.mem_append, (perm_merge le r _).mem_iff, List.mem_append, ← or_assoc] at hother
    rcases hother with hfirst | hsecond
    · exact ha.1 other (List.mem_append.2 hfirst)
    · exact htrans x y other hxy (hb.le_of_mem htotal other hsecond)
  | case4 i x l r j y l' r' hxy ih =>
    apply hb.2.1.join (ih ha hb.2.2)
    intro other hother
    rw [List.mem_append, (perm_merge le _ r').mem_iff, List.mem_append, or_left_comm] at hother
    rcases hother with hfirst | hsecond
    · exact htrans y x other ((htotal x y).resolve_left hxy) (ha.le_of_mem htotal other hfirst)
    · exact hb.1 other (List.mem_append.2 hsecond)

end Merge

end LeftistTree

/-! ## Heaps -/

namespace MinHeap

theorem size_pos_of_peek? {heap : MinHeap α} {value : α} (h : heap.peek? = some value) :
    0 < heap.size := by
  obtain ⟨tree, size, hsize⟩ := heap
  cases tree with
  | leaf => cases h
  | node rank top left right =>
    simp only [hsize, LeftistTree.count]
    omega

theorem length_toList (heap : MinHeap α) : heap.toList.length = heap.size := by
  rw [heap.size_eq]
  exact heap.tree.length_toList

theorem size_tail (heap : MinHeap α) (le : α → α → Bool) :
    (heap.tail le).size = heap.size - 1 := by
  obtain ⟨tree, size, hsize⟩ := heap
  cases tree with
  | leaf =>
    rw [LeftistTree.count_leaf] at hsize
    simp [tail, hsize]
  | node rank top left right => rfl

theorem perm_insert (heap : MinHeap α) (le : α → α → Bool) (value : α) :
    (heap.insert le value).toList.Perm (value :: heap.toList) := LeftistTree.perm_merge le _ _

theorem perm_tail {heap : MinHeap α} {top : α} (le : α → α → Bool) (htop : heap.peek? = some top) :
    heap.toList.Perm (top :: (heap.tail le).toList) := by
  obtain ⟨tree, size, hsize⟩ := heap
  cases tree with
  | leaf => cases htop
  | node rank value left right =>
    obtain rfl := Option.some.inj htop
    exact (LeftistTree.perm_merge le left right).symm.cons value

theorem mem_of_peek? {heap : MinHeap α} {top : α} (htop : heap.peek? = some top) :
    top ∈ heap.toList :=
  -- Any order will do, as the top is there whichever way the rest is merged.
  (perm_tail (fun _ _ ↦ true) htop).mem_iff.2 List.mem_cons_self

theorem mem_of_mem_tail {heap : MinHeap α} {top value : α} {le : α → α → Bool}
    (htop : heap.peek? = some top) (hmem : value ∈ (heap.tail le).toList) :
    value ∈ heap.toList :=
  (perm_tail le htop).mem_iff.2 (List.mem_cons_of_mem top hmem)

theorem mem_tail_of_ne {heap : MinHeap α} {top value : α} {le : α → α → Bool}
    (htop : heap.peek? = some top) (hmem : value ∈ heap.toList) (hne : value ≠ top) :
    value ∈ (heap.tail le).toList :=
  (List.mem_cons.1 ((perm_tail le htop).mem_iff.1 hmem)).resolve_left hne

theorem toList_eq_nil {heap : MinHeap α} (h : heap.peek? = none) : heap.toList = [] := by
  obtain ⟨tree, size, hsize⟩ := heap
  cases tree with
  | leaf => rfl
  | node rank value left right => cases h

/-- No element is below a greater one. -/
def Ordered (le : α → α → Bool) (heap : MinHeap α) : Prop := heap.tree.Ordered le

theorem ordered_empty (le : α → α → Bool) : (empty : MinHeap α).Ordered le := trivial

variable (htrans : ∀ a b c, le a b = true → le b c = true → le a c = true)
  (htotal : ∀ a b, le a b = true ∨ le b a = true) {heap : MinHeap α}

include htrans htotal in
theorem Ordered.insert (h : heap.Ordered le) (value : α) :
    (heap.insert le value).Ordered le := by
  apply LeftistTree.Ordered.merge htrans htotal _ h
  exact ⟨fun other hother ↦ (nomatch hother), trivial, trivial⟩

include htrans htotal in
theorem Ordered.tail (h : heap.Ordered le) : (heap.tail le).Ordered le := by
  obtain ⟨tree, size, hsize⟩ := heap
  cases tree with
  | leaf => exact h
  | node rank value left right => exact h.2.1.merge htrans htotal h.2.2

include htotal in
/-- The top is least. -/
theorem Ordered.le_of_peek? (h : heap.Ordered le) {top : α} (htop : heap.peek? = some top) :
    ∀ other ∈ heap.toList, le top other = true := by
  obtain ⟨tree, size, hsize⟩ := heap
  cases tree with
  | leaf => cases htop
  | node rank value left right =>
    obtain rfl := Option.some.inj htop
    exact LeftistTree.Ordered.le_of_mem htotal h

end MinHeap

end KeyHeat

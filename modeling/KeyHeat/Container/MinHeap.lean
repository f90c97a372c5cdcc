/-!
# Leftist min-heaps

A heap-ordered binary tree in which no right spine is longer than the left one, so that merging
two heaps walks only right spines. The order is a Boolean comparison given with each operation.
The number of elements is kept with the tree, with the proof that it is the tree's.
-/

namespace KeyHeat

inductive LeftistTree (α : Type) where
  | leaf
  | node (rank : Nat) (value : α) (left right : LeftistTree α)

namespace LeftistTree

variable {α : Type}

def rank : LeftistTree α → Nat
  | leaf => 0
  | node rank _ _ _ => rank

def count : LeftistTree α → Nat
  | leaf => 0
  | node _ _ left right => left.count + right.count + 1

/-- All elements, in no particular order. -/
def toList : LeftistTree α → List α
  | leaf => []
  | node _ value left right => value :: (left.toList ++ right.toList)

/-- A node with the higher-ranked subtree on the left. -/
def join (value : α) (a b : LeftistTree α) : LeftistTree α :=
  if b.rank ≤ a.rank then node (b.rank + 1) value a b else node (a.rank + 1) value b a

def merge (le : α → α → Bool) (a b : LeftistTree α) : LeftistTree α :=
  match a, b with
  | leaf, b => b
  | a, leaf => a
  | node i x l r, node j y l' r' =>
    if le x y then
      join x l (merge le r (node j y l' r'))
    else
      join y l' (merge le (node i x l r) r')
termination_by a.count + b.count
decreasing_by all_goals simp only [count]; omega

@[simp]
theorem count_leaf : (leaf : LeftistTree α).count = 0 := rfl

theorem count_join (value : α) (a b : LeftistTree α) :
    (join value a b).count = a.count + b.count + 1 := by
  unfold join
  split
  · rfl
  · simp only [count]
    omega

theorem count_merge (le : α → α → Bool) (a b : LeftistTree α) :
    (merge le a b).count = a.count + b.count := by
  fun_induction merge le a b with
  | case1 b => simp [count]
  | case2 a => simp [count]
  | case3 i x l r j y l' r' _ ih =>
    simp only [count_join, ih, count]
    omega
  | case4 i x l r j y l' r' _ ih =>
    simp only [count_join, ih, count]
    omega

end LeftistTree

structure MinHeap (α : Type) where
  tree : LeftistTree α
  size : Nat
  size_eq : size = tree.count

namespace MinHeap

variable {α : Type}

def empty : MinHeap α := ⟨.leaf, 0, LeftistTree.count_leaf.symm⟩

instance : Inhabited (MinHeap α) := ⟨empty⟩

def toList (heap : MinHeap α) : List α := heap.tree.toList

def insert (heap : MinHeap α) (le : α → α → Bool) (value : α) : MinHeap α :=
  ⟨.merge le (.node 1 value .leaf .leaf) heap.tree, heap.size + 1, by
    simp only [LeftistTree.count_merge, LeftistTree.count, heap.size_eq]
    omega⟩

/-- The least element. -/
def peek? (heap : MinHeap α) : Option α :=
  match heap.tree with
  | .leaf => none
  | .node _ value _ _ => some value

/-- The heap without its least element. -/
def tail (heap : MinHeap α) (le : α → α → Bool) : MinHeap α :=
  match heap with
  | ⟨.leaf, size, h⟩ => ⟨.leaf, size, h⟩
  | ⟨.node _ _ left right, size, h⟩ =>
    ⟨.merge le left right, size - 1, by
      simp only [LeftistTree.count_merge, LeftistTree.count, h]
      omega⟩

end MinHeap

end KeyHeat

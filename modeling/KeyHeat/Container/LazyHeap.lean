import KeyHeat.Container.MinHeap
import Std.Data.HashMap

/-!
# Lazy min-heaps

A finite map from keys to scores with access to a key of least score. The map is authoritative.
Every update pushes a fresh entry onto a heap and leaves older entries of the key where they are;
an entry counts as live while the map gives its key the same score, and entries that are not are
dropped as they surface. Entries of equal score are ordered by when they were pushed. A rebuild
replaces the heap by one entry for each key.
-/

namespace KeyHeat

structure HeapEntry (κ σ : Type) where
  score : σ
  stamp : Nat
  key : κ

/-- By score, then by age. -/
def HeapEntry.le {κ σ : Type} [Ord σ] (a b : HeapEntry κ σ) : Bool :=
  match compare a.score b.score with
  | .lt => true
  | .eq => a.stamp ≤ b.stamp
  | .gt => false

structure LazyHeap (κ σ : Type) [BEq κ] [Hashable κ] where
  scores : Std.HashMap κ σ
  entries : MinHeap (HeapEntry κ σ)
  /-- The stamp of the next entry. A counter of machine words would come back to zero after as many
  entries as there are words; this one never does. -/
  nextStamp : Nat

namespace LazyHeap

variable {κ σ : Type} [BEq κ] [Hashable κ]

def empty : LazyHeap κ σ := ⟨∅, .empty, 0⟩

instance : Inhabited (LazyHeap κ σ) := ⟨empty⟩

/-- The number of keys. -/
def size (heap : LazyHeap κ σ) : Nat := heap.scores.size

def isEmpty (heap : LazyHeap κ σ) : Bool := heap.scores.isEmpty

/-- The number of heap entries, stale ones included. -/
def entryCount (heap : LazyHeap κ σ) : Nat := heap.entries.size

def contains (heap : LazyHeap κ σ) (key : κ) : Bool := heap.scores.contains key

def score? (heap : LazyHeap κ σ) (key : κ) : Option σ := heap.scores[key]?

/-- The keys with their scores, in no particular order. -/
def toList (heap : LazyHeap κ σ) : List (κ × σ) := heap.scores.toList

/-- The keys with their scores in the order of the keys, for readers that need one. -/
def byKey [Ord κ] (heap : LazyHeap κ σ) : List (κ × σ) :=
  heap.toList.mergeSort fun (a, _) (b, _) ↦ (compare a b).isLE

/-- Forgets `key` and gives back its score, if it had one. Its heap entries become stale. -/
def remove (heap : LazyHeap κ σ) (key : κ) : Option σ × LazyHeap κ σ :=
  let ⟨scores, entries, stamp⟩ := heap
  let score? := scores[key]?
  (score?, ⟨scores.erase key, entries, stamp⟩)

/-- The heap that a removal leaves. -/
def erase (heap : LazyHeap κ σ) (key : κ) : LazyHeap κ σ := (heap.remove key).2

variable [Ord σ]

/-- Pushes a heap entry without touching the map. -/
def pushEntry (heap : LazyHeap κ σ) (key : κ) (score : σ) : LazyHeap κ σ :=
  let ⟨scores, entries, stamp⟩ := heap
  ⟨scores, entries.insert HeapEntry.le ⟨score, stamp, key⟩, stamp + 1⟩

/-- Gives `key` the score `score` and answers with the one that it had before. -/
def replace (heap : LazyHeap κ σ) (key : κ) (score : σ) : Option σ × LazyHeap κ σ :=
  let ⟨scores, entries, stamp⟩ := heap
  let previous? := scores[key]?
  (previous?, pushEntry ⟨scores.insert key score, entries, stamp⟩ key score)

/-- The heap that a change of score leaves. -/
def update (heap : LazyHeap κ σ) (key : κ) (score : σ) : LazyHeap κ σ := (heap.replace key score).2

/-- Makes the heap hold one entry for each key. The entries get their stamps in the order in which
the map lists its keys. That order is arbitrary: among keys of equal score, which is on top after a
rebuild depends on the implementation of the map. -/
def rebuild (heap : LazyHeap κ σ) : LazyHeap κ σ :=
  heap.toList.foldl (fun heap (key, score) ↦ heap.pushEntry key score)
    { heap with entries := .empty }

/-- Rebuilds once the heap has more than `factor` entries for each key. -/
def maybeRebuild (heap : LazyHeap κ σ) (factor : Nat) : LazyHeap κ σ :=
  if heap.entryCount > max heap.size 1 * max factor 1 then heap.rebuild else heap

variable [BEq σ]

def isLive (heap : LazyHeap κ σ) (entry : HeapEntry κ σ) : Bool :=
  heap.scores[entry.key]? == some entry.score

/-- Drops stale entries until a live one, if any is left, is on top. -/
def dropStale (heap : LazyHeap κ σ) : LazyHeap κ σ :=
  settle heap heap.entryCount
where
  settle (heap : LazyHeap κ σ) : Nat → LazyHeap κ σ
    | 0 => heap
    | fuel + 1 =>
      match heap.entries.peek? with
      | some top =>
        if heap.isLive top then
          heap
        else
          settle { heap with entries := heap.entries.tail HeapEntry.le } fuel
      | none => heap

/-- A key of least score with that score. The heap that comes with it has no stale entry on
top. -/
def peek? (heap : LazyHeap κ σ) : Option (κ × σ) × LazyHeap κ σ :=
  let heap := heap.dropStale
  (heap.entries.peek?.map fun top ↦ (top.key, top.score), heap)

/-- Removes and gives back a key of least score. -/
def pop? (heap : LazyHeap κ σ) : Option (κ × σ) × LazyHeap κ σ :=
  let heap := heap.dropStale
  match heap.entries.peek? with
  | some top =>
    let ⟨scores, entries, stamp⟩ := heap
    (some (top.key, top.score), ⟨scores.erase top.key, entries.tail HeapEntry.le, stamp⟩)
  | none => (none, heap)

/-- Checks that every key has a live heap entry. -/
def check (heap : LazyHeap κ σ) : Except String Unit := do
  if heap.entryCount < heap.size then
    throw "heap holds fewer entries than keys"
  let entries := heap.entries.toList
  if heap.toList.any fun (key, score) ↦
      !entries.any fun entry ↦ entry.key == key && entry.score == score then
    throw "key without a heap entry of its score"

end LazyHeap

end KeyHeat

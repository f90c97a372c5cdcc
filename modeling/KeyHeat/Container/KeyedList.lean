import KeyHeat.Container.LinkedList
import Std.Data.HashMap

/-!
# Keyed lists

A list of distinct keys with constant-time membership, removal and moves to either end: a linked
list of the keys and an index from each key to its node. With new and touched keys put at the
front, the list is a recency order, most recent first; with new keys put at one end and taken
from the other it is a queue from whose middle keys can be withdrawn.
-/

namespace KeyHeat

structure KeyedList (κ : Type) [BEq κ] [Hashable κ] where
  list : LinkedList κ
  index : Std.HashMap κ SlotId

namespace KeyedList

variable {κ : Type} [BEq κ] [Hashable κ]

def empty : KeyedList κ := ⟨.empty, ∅⟩

instance : Inhabited (KeyedList κ) := ⟨empty⟩

def length (keys : KeyedList κ) : Nat := keys.list.length

def isEmpty (keys : KeyedList κ) : Bool := keys.list.isEmpty

def contains (keys : KeyedList κ) (key : κ) : Bool := keys.index.contains key

/-- The keys from the front to the back. -/
def toList (keys : KeyedList κ) : List κ := keys.list.toList

/-- The key at an end. -/
def peek? (keys : KeyedList κ) (side : End) : Option κ := keys.list.peek? side

/-- Whether the index leads from `key` to its own node. -/
def isLinked (keys : KeyedList κ) (key : κ) : Bool :=
  keys.index[key]?.any fun id ↦ (keys.list.get? id).any (· == key)

/-- Moves `key` to an end and tells whether it was moved, which takes a node that the index leads
to. -/
def move (keys : KeyedList κ) (side : End) (key : κ) : Bool × KeyedList κ :=
  let ⟨list, index⟩ := keys
  match index[key]? with
  | some id =>
    let (moved, list) := list.move id side
    (moved, ⟨list, index⟩)
  | none => (false, ⟨list, index⟩)

/-- The list that a move leaves. -/
def touch (keys : KeyedList κ) (side : End) (key : κ) : KeyedList κ := (keys.move side key).2

/-- Adds `key` at an end, or moves it there if it is in the list already. -/
def push (keys : KeyedList κ) (side : End) (key : κ) : KeyedList κ :=
  let (moved, keys) := keys.move side key
  if moved then
    keys
  else
    let ⟨list, index⟩ := keys
    let (id, list) := list.push side key
    ⟨list, index.insert key id⟩

/-- Removes `key` and tells whether the index led to a node for it. -/
def remove (keys : KeyedList κ) (key : κ) : Bool × KeyedList κ :=
  let ⟨list, index⟩ := keys
  match index[key]? with
  | some id =>
    let (value?, list) := list.remove id
    (value?.isSome, ⟨list, index.erase key⟩)
  | none => (false, ⟨list, index⟩)

/-- The list that a removal leaves. -/
def erase (keys : KeyedList κ) (key : κ) : KeyedList κ := (keys.remove key).2

/-- Removes the key at an end and gives it back, if there is one. -/
def pop (keys : KeyedList κ) (side : End) : Option κ × KeyedList κ :=
  let ⟨list, index⟩ := keys
  match list.pop side with
  | (some key, list) => (some key, ⟨list, index.erase key⟩)
  | (none, list) => (none, ⟨list, index⟩)

/-- Drops keys from the back until at most `bound` remain. -/
def trim (keys : KeyedList κ) (bound : Nat) : KeyedList κ :=
  shrink keys (keys.length - bound)
where
  shrink (keys : KeyedList κ) : Nat → KeyedList κ
    | 0 => keys
    | excess + 1 => shrink (keys.pop .back).2 excess

/-- Checks the links of the list and that the index names exactly its nodes. -/
def check (keys : KeyedList κ) : Except String Unit := do
  keys.list.checkLinks
  if keys.length ≠ keys.index.size then
    throw s!"recency list holds {keys.length} keys but index holds {keys.index.size}"
  if keys.index.toList.any fun (key, id) ↦ !(keys.list.get? id).any (· == key) then
    throw "recency index points at a foreign node"

end KeyedList

end KeyHeat

import KeyHeat.Container.KeyedList
import KeyHeat.Error
import KeyHeat.Key

/-!
# Least recently used

The separator keeps the keys accessed last, up to its capacity, and all of them are hot. A write
of a new key evicts the least recently used one when the separator is full; a read admits
nothing.
-/

namespace KeyHeat

structure Lru (κ : Type) [BEq κ] [Hashable κ] where
  /-- The resident keys, most recent first. -/
  keys : KeyedList κ
  capacity : Nat

namespace Lru

variable {κ : Type} [BEq κ] [Hashable κ]

def empty (capacity : Nat) : Lru κ := ⟨.empty, capacity⟩

def size (lru : Lru κ) : Nat := lru.keys.length

/-- The resident key that is next to be evicted. -/
def leastRecent? (lru : Lru κ) : Option κ := lru.keys.peek? .back

/-- Moves a resident key to the front and tells whether it was moved. -/
def move (lru : Lru κ) (key : κ) : Bool × Lru κ :=
  let ⟨keys, capacity⟩ := lru
  let (moved, keys) := keys.move .front key
  (moved, ⟨keys, capacity⟩)

/-- The separator that a move leaves. -/
def touch (lru : Lru κ) (key : κ) : Lru κ := (lru.move key).2

/-- Adds a key that is not resident, at the expense of the least recent one if need be. -/
def enroll (lru : Lru κ) (key : κ) : Lru κ :=
  let ⟨keys, capacity⟩ := lru
  let keys := if keys.length ≥ capacity then (keys.pop .back).2 else keys
  ⟨keys.push .front key, capacity⟩

def put (lru : Lru κ) (key : κ) : Access × Lru κ :=
  if lru.capacity = 0 then
    (.error .capacity, lru)
  else
    match lru.move key with
    | (true, lru) => (.ok (), lru)
    | (false, lru) => (.ok (), lru.enroll key)

def get (lru : Lru κ) (key : κ) : Access × Lru κ :=
  match lru.move key with
  | (true, lru) => (.ok (), lru)
  | (false, lru) => (.error .notFound, lru)

def isHot (lru : Lru κ) (key : κ) : Bool := lru.keys.contains key

/-- All resident keys, most recent first. -/
def hotKeys (lru : Lru κ) : List κ := lru.keys.toList

def diagnostics [KeyText κ] (lru : Lru κ) : String :=
  s!"lru capacity={lru.capacity} len={lru.size}\n" ++
    String.join (lru.keys.toList.map fun key ↦ "  " ++ KeyText.text key ++ "\n")

def check (lru : Lru κ) : Except String Unit := do
  if lru.size > lru.capacity then
    throw s!"LRU holds {lru.size} keys with capacity {lru.capacity}"
  lru.keys.check

end Lru

end KeyHeat

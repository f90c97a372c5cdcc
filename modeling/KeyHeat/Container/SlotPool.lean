/-!
# Slot pools

A pool stores values under small indices that stay valid until their slot is freed. A vacant slot
holds the index of the next vacant one, so the free slots form a chain through the array itself:
insertion reuses the most recently freed slot, and a steady cycle of insertions and removals never
grows the array.
-/

namespace KeyHeat

/-- The index of a slot, which serves as the handle of what is stored there. -/
abbrev SlotId := Nat

inductive Slot (α : Type) where
  | used (value : α)
  | vacant (next : Option SlotId)
  deriving Repr

def Slot.value? {α : Type} : Slot α → Option α
  | .used value => some value
  | .vacant _ => none

structure SlotPool (α : Type) where
  slots : Array (Slot α)
  /-- The vacant slot that the next insertion takes. -/
  vacantHead : Option SlotId
  /-- The number of used slots. -/
  used : Nat

namespace SlotPool

variable {α : Type}

def empty : SlotPool α := ⟨#[], none, 0⟩

instance : Inhabited (SlotPool α) := ⟨empty⟩

def size (pool : SlotPool α) : Nat := pool.used

def isEmpty (pool : SlotPool α) : Bool := pool.used == 0

/-- The value in a used slot; a vacant slot and an index past the end hold none. -/
def get? (pool : SlotPool α) (id : SlotId) : Option α :=
  pool.slots[id]?.bind Slot.value?

def contains (pool : SlotPool α) (id : SlotId) : Bool :=
  (pool.get? id).isSome

/-- Stores `value` in the head of the vacant chain, or in a new slot if the chain is empty. -/
def insert (pool : SlotPool α) (value : α) : SlotId × SlotPool α :=
  match pool.vacantHead with
  | some id =>
    let rest := match pool.slots[id]? with
      | some (.vacant next) => next
      | _ => some id
    (id, ⟨pool.slots.setIfInBounds id (.used value), rest, pool.used + 1⟩)
  | none => (pool.slots.size, ⟨pool.slots.push (.used value), none, pool.used + 1⟩)

/-- Frees a used slot, which becomes the head of the vacant chain, and gives back what was in it.
Without such a slot there is nothing to give back, and the pool is left alone. -/
def remove (pool : SlotPool α) (id : SlotId) : Option α × SlotPool α :=
  match pool.get? id with
  | some value =>
    let ⟨slots, vacantHead, used⟩ := pool
    (some value, ⟨slots.setIfInBounds id (.vacant vacantHead), some id, used - 1⟩)
  | none => (none, pool)

/-- The pool that a removal leaves. -/
def erase (pool : SlotPool α) (id : SlotId) : SlotPool α := (pool.remove id).2

/-- Replaces the value in a used slot by its image; other slots stay as they are. -/
def modify (pool : SlotPool α) (id : SlotId) (f : α → α) : SlotPool α :=
  let ⟨slots, vacantHead, used⟩ := pool
  ⟨slots.modify id fun
    | .used value => .used (f value)
    | .vacant next => .vacant next, vacantHead, used⟩

/-- The used slots with their values, in index order. -/
def toList (pool : SlotPool α) : List (SlotId × α) :=
  pool.slots.toList.zipIdx.filterMap fun (slot, id) ↦ slot.value?.map (id, ·)

/-- The vacant slots in the order in which insertions will take them. -/
def vacantChain (pool : SlotPool α) : List SlotId :=
  follow pool.slots.size pool.vacantHead
where
  follow : Nat → Option SlotId → List SlotId
    | 0, _ => []
    | _, none => []
    | fuel + 1, some id =>
      id :: match pool.slots[id]? with
        | some (.vacant next) => follow fuel next
        | _ => []

end SlotPool

end KeyHeat

import KeyHeat.Container.Fifo
import Std.Data.HashMap

/-!
# Ghost queues

A bounded memory of the fingerprints of keys that were dropped. Each record gets the next stamp
and goes both into a queue and into a table of live records; a queue entry is live exactly while
the table holds its stamp. Forgetting or refreshing a fingerprint touches the table alone and
leaves its old queue entry stale, to be skipped when it comes to the front. The queue is
compacted when stale entries outnumber the live ones, so it stays proportional to the capacity.
-/

namespace KeyHeat

structure GhostQueue where
  capacity : Nat
  /-- Fingerprints with their stamps, oldest first, stale entries included. -/
  order : Fifo (UInt64 × Nat)
  /-- The stamp of the live record of each fingerprint. -/
  live : Std.HashMap UInt64 Nat
  /-- The stamp of the next record. A counter of machine words would leave their range after as many
  records as there are words; this one never does. -/
  nextStamp : Nat

namespace GhostQueue

def empty (capacity : Nat) : GhostQueue := ⟨capacity, .empty, ∅, 0⟩

def size (ghosts : GhostQueue) : Nat := ghosts.live.size

def isEmpty (ghosts : GhostQueue) : Bool := ghosts.live.isEmpty

def contains (ghosts : GhostQueue) (fingerprint : UInt64) : Bool :=
  ghosts.live.contains fingerprint

/-- Whether the table holds exactly this record. -/
def isLive (live : Std.HashMap UInt64 Nat) (entry : UInt64 × Nat) : Bool :=
  live[entry.1]? == some entry.2

/-- Drops queue entries up to and including the oldest live one, which is forgotten. -/
def forgetOldest (ghosts : GhostQueue) : GhostQueue :=
  let (order, live) := drain ghosts.live ghosts.order ghosts.order.length
  { ghosts with order, live }
where
  drain (live : Std.HashMap UInt64 Nat) (order : Fifo (UInt64 × Nat)) :
      Nat → Fifo (UInt64 × Nat) × Std.HashMap UInt64 Nat
    | 0 => (order, live)
    | fuel + 1 =>
      match order.peek? with
      | some entry =>
        if isLive live entry then (order.tail, live.erase entry.1) else drain live order.tail fuel
      | none => (order, live)

/-- Forgets the oldest records until at most `capacity` are live. -/
def bound (ghosts : GhostQueue) : GhostQueue :=
  shrink ghosts (ghosts.size - ghosts.capacity)
where
  shrink (ghosts : GhostQueue) : Nat → GhostQueue
    | 0 => ghosts
    | excess + 1 => shrink ghosts.forgetOldest excess

/-- Removes the stale entries from the queue once they exceed the live ones by more than eight. -/
def compact (ghosts : GhostQueue) : GhostQueue :=
  if ghosts.order.length > 2 * ghosts.size + 8 then
    { ghosts with order := ghosts.order.filter (isLive ghosts.live) }
  else
    ghosts

/-- Makes `fingerprint` the newest record, whether it was live or not. A queue of capacity zero
remembers nothing. -/
def record (ghosts : GhostQueue) (fingerprint : UInt64) : GhostQueue :=
  if ghosts.capacity = 0 then
    ghosts
  else
    let ⟨capacity, order, live, stamp⟩ := ghosts
    let stamped : GhostQueue :=
      ⟨capacity, order.push (fingerprint, stamp), live.insert fingerprint stamp, stamp + 1⟩
    stamped.bound.compact

/-- Forgets `fingerprint`. -/
def erase (ghosts : GhostQueue) (fingerprint : UInt64) : GhostQueue :=
  let ⟨capacity, order, live, stamp⟩ := ghosts
  ⟨capacity, order, live.erase fingerprint, stamp⟩

/-- Whether `fingerprint` was live, and the queue once it is forgotten. -/
def remove (ghosts : GhostQueue) (fingerprint : UInt64) : Bool × GhostQueue :=
  (ghosts.contains fingerprint, ghosts.erase fingerprint)

/-- The live fingerprints, newest first. -/
def toList (ghosts : GhostQueue) : List UInt64 :=
  (ghosts.order.newestFirst.filter (isLive ghosts.live)).map (·.1)

/-- Checks the bound and that every live record is queued once. -/
def check (ghosts : GhostQueue) : Except String Unit := do
  if ghosts.size > ghosts.capacity then
    throw s!"ghost holds {ghosts.size} fingerprints with capacity {ghosts.capacity}"
  let queued := (ghosts.order.toList.filter (isLive ghosts.live)).length
  if queued ≠ ghosts.size then
    throw s!"ghost queue holds {queued} live entries but index holds {ghosts.size}"

end GhostQueue

end KeyHeat

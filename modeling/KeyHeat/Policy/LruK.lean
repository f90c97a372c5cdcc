import KeyHeat.Container.KeyedList
import KeyHeat.Error
import KeyHeat.Key

/-!
# Least recently used after `k` accesses

A key is hot once it has been accessed `k` times. Until then it waits in a history queue, in
order of admission; the `k`-th access moves it to the front of the cache, where each further
access puts it again. Both share one capacity, and a new key in a full separator evicts the oldest
key of the history, or the least recent key of the cache if the history is empty. With `k = 1` a
new key goes to the cache at once.
-/

namespace KeyHeat

structure LruK (κ : Type) [BEq κ] [Hashable κ] where
  /-- The number of accesses of each resident key since its admission, for which there is no
  upper bound. -/
  counts : Std.HashMap κ Nat
  /-- The keys with fewer than `k` accesses, latest admission first. -/
  history : KeyedList κ
  /-- The keys with at least `k` accesses, most recent first. -/
  cache : KeyedList κ
  k : Nat
  capacity : Nat

namespace LruK

variable {κ : Type} [BEq κ] [Hashable κ]

def create (k capacity : Nat) : Except BuildProblem (LruK κ) :=
  if k = 0 then .error .historyDepthZero else .ok ⟨∅, .empty, .empty, k, capacity⟩

def size (lruK : LruK κ) : Nat := lruK.counts.size

def accessCount? (lruK : LruK κ) (key : κ) : Option Nat := lruK.counts[key]?

/-- One more access to a resident key that had `count` of them. A key goes to the cache only once it
has been taken out of the history. -/
def touch (lruK : LruK κ) (key : κ) (count : Nat) : LruK κ :=
  let ⟨counts, history, cache, k, capacity⟩ := lruK
  let counts := counts.insert key (count + 1)
  if history.contains key then
    if count + 1 ≥ k then
      match history.remove key with
      | (true, history) => ⟨counts, history, cache.push .front key, k, capacity⟩
      | (false, history) => ⟨counts, history, cache, k, capacity⟩
    else
      ⟨counts, history, cache, k, capacity⟩
  else
    ⟨counts, history, cache.touch .front key, k, capacity⟩

def evict (lruK : LruK κ) : LruK κ :=
  let ⟨counts, history, cache, k, capacity⟩ := lruK
  match history.pop .back with
  | (some victim, history) => ⟨counts.erase victim, history, cache, k, capacity⟩
  | (none, history) =>
    match cache.pop .back with
    | (some victim, cache) => ⟨counts.erase victim, history, cache, k, capacity⟩
    | (none, cache) => ⟨counts, history, cache, k, capacity⟩

/-- Adds a key that is not resident. -/
def enroll (lruK : LruK κ) (key : κ) : LruK κ :=
  let ⟨counts, history, cache, k, capacity⟩ :=
    if lruK.size ≥ lruK.capacity then lruK.evict else lruK
  if k = 1 then
    ⟨counts.insert key 1, history, cache.push .front key, k, capacity⟩
  else
    ⟨counts.insert key 1, history.push .front key, cache, k, capacity⟩

def put (lruK : LruK κ) (key : κ) : Access × LruK κ :=
  if lruK.capacity = 0 then (.error .capacity, lruK)
  else match lruK.accessCount? key with
    | some count => (.ok (), lruK.touch key count)
    | none => (.ok (), lruK.enroll key)

def get (lruK : LruK κ) (key : κ) : Access × LruK κ :=
  match lruK.accessCount? key with
  | some count => (.ok (), lruK.touch key count)
  | none => (.error .notFound, lruK)

def isHot (lruK : LruK κ) (key : κ) : Bool := lruK.cache.contains key

/-- The keys of the cache, most recent first. -/
def hotKeys (lruK : LruK κ) : List κ := lruK.cache.toList

def diagnostics [KeyText κ] (lruK : LruK κ) : String :=
  s!"lruk k={lruK.k} capacity={lruK.capacity} history={lruK.history.length} " ++
    s!"cache={lruK.cache.length}\n" ++ line "history" lruK.history ++ line "cache" lruK.cache
where
  line (label : String) (keys : KeyedList κ) : String :=
    "  " ++ label ++ ":" ++ String.join (keys.toList.map fun key ↦
      s!" {KeyText.text key}x{(lruK.accessCount? key).getD 0}") ++ "\n"

/-- Whether a key with that count is not in its queue, or in the other one. -/
def isMisplaced (lruK : LruK κ) (key : κ) (count : Nat) : Bool :=
  let promoted := !lruK.history.contains key
  let queue := if promoted then lruK.cache else lruK.history
  !queue.isLinked key || promoted != decide (count ≥ lruK.k)

def check (lruK : LruK κ) : Except String Unit := do
  lruK.history.check
  lruK.cache.check
  if lruK.history.length + lruK.cache.length ≠ lruK.size then
    throw (s!"LRU-K queues hold {lruK.history.length} + {lruK.cache.length} keys but index " ++
      s!"holds {lruK.size}")
  if lruK.size > lruK.capacity then
    throw s!"LRU-K holds {lruK.size} keys with capacity {lruK.capacity}"
  match lruK.counts.toList.find? fun (key, count) ↦ lruK.isMisplaced key count with
  | some (key, count) =>
    let queue := if lruK.history.contains key then "History" else "Cache"
    throw s!"LRU-K entry with count {count} misplaced in {queue}"
  | none => pure ()

end LruK

end KeyHeat

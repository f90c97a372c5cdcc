import KeyHeat.Number.Convert
import Std.Data.HashMap

/-!
# Exact access counts

The ground truth that separators are measured against: how often each key was accessed since it
was last deleted, and the keys ranked by that. The hot keys are a portion of the ranking.
-/

namespace KeyHeat

structure AccessCounts (κ : Type) [BEq κ] [Hashable κ] where
  /-- The number of accesses to each key, for which there is no upper bound. -/
  counts : Std.HashMap κ Nat

namespace AccessCounts

variable {κ : Type} [BEq κ] [Hashable κ]

def empty : AccessCounts κ := ⟨∅⟩

/-- One more access to `key`. -/
def record (stats : AccessCounts κ) (key : κ) : AccessCounts κ :=
  let ⟨counts⟩ := stats
  ⟨counts.alter key fun count? ↦ some (count?.getD 0 + 1)⟩

def contains (stats : AccessCounts κ) (key : κ) : Bool := stats.counts.contains key

def erase (stats : AccessCounts κ) (key : κ) : AccessCounts κ :=
  let ⟨counts⟩ := stats
  ⟨counts.erase key⟩

def count (stats : AccessCounts κ) (key : κ) : Nat := stats.counts.getD key 0

/-- The number of distinct keys. -/
def size (stats : AccessCounts κ) : Nat := stats.counts.size

def isEmpty (stats : AccessCounts κ) : Bool := stats.counts.isEmpty

/-- The number of accesses to all keys. -/
def total (stats : AccessCounts κ) : Nat := stats.counts.fold (fun total _ count ↦ total + count) 0

/-- Whether the first key comes before the second in the ranking, given their counts. -/
def ranksBefore [Ord κ] (a b : κ × Nat) : Bool :=
  if a.2 = b.2 then (compare a.1 b.1).isLE else a.2 > b.2

/-- The keys with their counts, highest count first, equal counts by key. -/
def ranked [Ord κ] (stats : AccessCounts κ) : List (κ × Nat) :=
  stats.counts.toList.mergeSort ranksBefore

end AccessCounts

/-- The portion of `n` distinct keys, rounded down. -/
def wholePortion (n : Nat) (portion : Float) : Nat :=
  Number.truncate (Number.ofCount n * Number.clamp 0 1 portion)

/-- How many of `n` distinct keys count as hot: one more than the portion of them rounded down,
but no more than there are. The sum is one of words, which only numbers of keys that no memory
holds could leave. -/
def hotKeyCount (n : Nat) (portion : Float) : Nat :=
  if n = 0 then 0 else min (wholePortion n portion + 1) n

/-- The hot keys at the given portion, most accessed first. -/
def AccessCounts.hotKeys {κ : Type} [BEq κ] [Hashable κ] [Ord κ] (stats : AccessCounts κ)
    (portion : Float) : List κ :=
  (stats.ranked.take (hotKeyCount stats.size portion)).map (·.1)

end KeyHeat

import KeyHeat.Separator.Basic
import KeyHeat.Truth.Counts
import KeyHeat.Truth.Overlap
import KeyHeat.Workload.Generator

/-!
# Accuracy runs

A generated workload is run against a separator, and the keys that it reports are scored against
those that were truly accessed most. A read that is rejected is followed by a write of its key,
as a host would do on a miss.
-/

namespace KeyHeat

namespace Accuracy

/-- A run in progress. -/
structure State where
  generator : Generator
  separator : Separator UInt64
  stats : AccessCounts UInt64
  /-- Reads that were rejected. -/
  notFound : Nat

def start (generator : Generator) (separator : Separator UInt64) : State :=
  ⟨generator, separator, .empty, 0⟩

/-- One access: a write with probability `writeRatio`, else a read. Time stands still. -/
def step (writeRatio : Float) (state : State) : State :=
  let ⟨generator, separator, stats, notFound⟩ := state
  let (key, generator) := generator.nextKey
  let stats := stats.record key
  let (unit, generator) := generator.nextUnit
  if unit < writeRatio then
    ⟨generator, (separator.put 0 key).2, stats, notFound⟩
  else
    match separator.get 0 key with
    | (.ok (), separator) => ⟨generator, separator, stats, notFound⟩
    | (.error _, separator) => ⟨generator, (separator.put 0 key).2, stats, notFound + 1⟩

/-- The given number of accesses. -/
def run (writeRatio : Float) (state : State) : Nat → State
  | 0 => state
  | operations + 1 => run writeRatio (step writeRatio state) operations

/-- The agreement of the separator with the given portion of the exact ranking. -/
def overlap (state : State) (portion : Float) : Overlap :=
  .compute (state.stats.hotKeys portion) (state.separator.hotKeys 0)

end Accuracy

/-- One specification of every implemented policy for `capacity` keys, with its label. -/
def roster (capacity : Nat) : List (String × Spec) :=
  [("lru", .lru capacity),
    ("lfu", .plainLfu capacity),
    ("lru_k", .lruK 2 capacity),
    ("window", .window 1000 8),
    ("sketch", .sketchWindow (capacity * 10) 0.001 0.01 8 true),
    ("w_tinylfu", .plainTinyLfu capacity),
    ("lirs", .plainLirs capacity),
    ("s3_fifo", .plainS3Fifo capacity),
    ("heap_topk", .heapTopK capacity 2)]

end KeyHeat

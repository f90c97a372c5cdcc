import KeyHeat.Container.Fifo
import KeyHeat.Error
import KeyHeat.Key
import Std.Data.HashMap

/-!
# Accesses within a time window

The separator queues every access with its time and counts the queued accesses of each key. A
key is hot while it has at least `threshold` accesses no older than `span` milliseconds. An
access first drops the queued ones that have grown too old; a query leaves the queue alone and
discounts the old accesses at its front instead, which are all of them while the times in the
queue increase.
-/

namespace KeyHeat

structure SlidingWindow (κ : Type) [BEq κ] [Hashable κ] where
  /-- The age in milliseconds up to which an access counts. -/
  span : Nat
  threshold : Nat
  /-- The times of the queued accesses with their keys, oldest first. -/
  accesses : Fifo (Nat × κ)
  /-- The number of queued accesses of each key that has any. -/
  counts : Std.HashMap κ Nat

namespace SlidingWindow

variable {κ : Type} [BEq κ] [Hashable κ]

def create (span threshold : Nat) : Except BuildProblem (SlidingWindow κ) :=
  if threshold = 0 then .error .thresholdZero else .ok ⟨span, threshold, .empty, ∅⟩

/-- The number of keys with queued accesses. -/
def size (window : SlidingWindow κ) : Nat := window.counts.size

/-- The number of queued accesses, those too old by now included. -/
def queued (window : SlidingWindow κ) : Nat := window.accesses.length

/-- Whether an access at `time` is too old at `now`. An access in the future is not. -/
def isExpired (span now time : Nat) : Bool := now - time > span

/-! ## Accesses -/

/-- One queued access of `key` less. -/
def discount (counts : Std.HashMap κ Nat) (key : κ) : Std.HashMap κ Nat :=
  counts.alter key fun
    | some count => if count = 1 then none else some (count - 1)
    | none => none

/-- Drops the accesses at the front of the queue that are too old at `now`. -/
def expire (window : SlidingWindow κ) (now : Nat) : SlidingWindow κ :=
  let ⟨span, threshold, accesses, counts⟩ := window
  let (accesses, counts) := drain span now accesses counts accesses.length
  ⟨span, threshold, accesses, counts⟩
where
  drain (span now : Nat) (accesses : Fifo (Nat × κ)) (counts : Std.HashMap κ Nat) :
      Nat → Fifo (Nat × κ) × Std.HashMap κ Nat
    | 0 => (accesses, counts)
    | fuel + 1 =>
      match accesses.peek? with
      | some (time, key) =>
        if isExpired span now time then drain span now accesses.tail (discount counts key) fuel
        else (accesses, counts)
      | none => (accesses, counts)

/-- Queues an access to `key` at `now`, after dropping those that are too old. -/
def record (window : SlidingWindow κ) (now : Nat) (key : κ) : SlidingWindow κ :=
  let ⟨span, threshold, accesses, counts⟩ := window.expire now
  ⟨span, threshold, accesses.push (now, key),
    counts.alter key fun count? ↦ some (count?.getD 0 + 1)⟩

/-- Reads and writes alike are recorded, and never rejected. -/
def access (window : SlidingWindow κ) (now : Nat) (key : κ) : Access × SlidingWindow κ :=
  (.ok (), window.record now key)

/-! ## Queries -/

/-- The queued accesses at the front that are too old at `now`. -/
def expiredFront (window : SlidingWindow κ) (now : Nat) : List (Nat × κ) :=
  window.accesses.toList.takeWhile fun (time, _) ↦ isExpired window.span now time

/-- The number of accesses to `key` in the window that ends at `now`. -/
def countInWindow (window : SlidingWindow κ) (now : Nat) (key : κ) : Nat :=
  window.counts.getD key 0 - (window.expiredFront now).countP fun (_, other) ↦ other == key

def isHot (window : SlidingWindow κ) (now : Nat) (key : κ) : Bool :=
  window.countInWindow now key ≥ window.threshold

/-- The keys of the accesses, newest first, up to the first that is too old, each at its latest
access only. -/
def recentKeys (window : SlidingWindow κ) (now : Nat) : List κ :=
  distinct ∅ ((window.accesses.newestFirst.takeWhile fun (time, _) ↦
    !isExpired window.span now time).map (·.2))
where
  distinct (seen : Std.HashMap κ Unit) : List κ → List κ
    | [] => []
    | key :: rest =>
      if seen.contains key then distinct seen rest
      else key :: distinct (seen.insert key ()) rest

/-- The hot keys, latest access first. -/
def hotKeys (window : SlidingWindow κ) (now : Nat) : List κ :=
  let stale : Std.HashMap κ Nat := (window.expiredFront now).foldl (fun stale (_, key) ↦
    stale.alter key fun count? ↦ some (count?.getD 0 + 1)) ∅
  (window.recentKeys now).filter fun key ↦
    window.counts.getD key 0 - stale.getD key 0 ≥ window.threshold

/-- The counts are listed in the order of their lines. -/
def diagnostics [KeyText κ] (window : SlidingWindow κ) : String :=
  let lines := window.counts.toList.map fun (key, count) ↦ s!"  {KeyText.text key}: {count}\n"
  s!"window window_ms={window.span} threshold={window.threshold} queued={window.queued} " ++
    s!"keys={window.size}\n" ++ String.join (lines.mergeSort (· ≤ ·))

def check (window : SlidingWindow κ) : Except String Unit := do
  let total := window.counts.fold (fun total _ count ↦ total + count) 0
  if total ≠ window.queued then
    throw s!"window counts sum to {total} but {window.queued} accesses are queued"
  if window.counts.values.any (· == 0) then
    throw "window keeps a zero count"

end SlidingWindow

end KeyHeat

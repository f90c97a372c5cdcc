import KeyHeat.Container.KeyedList
import KeyHeat.Error
import KeyHeat.Key

/-!
# Least frequently used

Resident keys are grouped into buckets by their number of accesses, the latest arrival of a
bucket in front. A cursor follows the lowest frequency; when the separator is full, a new key
takes the place of the last key of the bucket under the cursor, so ties in frequency fall to the
least recent key. All resident keys are hot.
-/

namespace KeyHeat

structure Lfu (κ : Type) [BEq κ] [Hashable κ] where
  /-- The number of accesses of each resident key since its admission, for which there is no
  upper bound. -/
  frequencies : Std.HashMap κ Nat
  /-- The resident keys of each frequency that occurs. -/
  buckets : Std.HashMap Nat (KeyedList κ)
  minFrequency : Nat
  capacity : Nat

namespace Lfu

variable {κ : Type} [BEq κ] [Hashable κ]

/-- The cursor starts at `minFrequency`, and the first admission sets it to one. -/
def empty (capacity minFrequency : Nat) : Lfu κ := ⟨∅, ∅, max minFrequency 1, capacity⟩

def size (lfu : Lfu κ) : Nat := lfu.frequencies.size

def frequency? (lfu : Lfu κ) (key : κ) : Option Nat := lfu.frequencies[key]?

/-! ## Buckets -/

/-- Adds `key` in front of the bucket of `frequency`. -/
def file (buckets : Std.HashMap Nat (KeyedList κ)) (frequency : Nat) (key : κ) :
    Std.HashMap Nat (KeyedList κ) :=
  buckets.alter frequency fun bucket? ↦ some ((bucket?.getD .empty).push .front key)

/-- Removes `key` from the bucket of `frequency`, and the bucket with its last key. -/
def withdraw (buckets : Std.HashMap Nat (KeyedList κ)) (frequency : Nat) (key : κ) :
    Std.HashMap Nat (KeyedList κ) :=
  buckets.alter frequency fun
    | some bucket =>
      let rest := bucket.erase key
      if rest.isEmpty then none else some rest
    | none => none

/-! ## Accesses -/

/-- Moves a key from the bucket of its frequency to the next. The cursor follows when it stood on
the old bucket and that is now gone. -/
def touch (lfu : Lfu κ) (key : κ) (frequency : Nat) : Lfu κ :=
  let ⟨frequencies, buckets, minFrequency, capacity⟩ := lfu
  let buckets := withdraw buckets frequency key
  let minFrequency :=
    if minFrequency = frequency ∧ !buckets.contains frequency then frequency + 1
    else minFrequency
  ⟨frequencies.insert key (frequency + 1), file buckets (frequency + 1) key, minFrequency, capacity⟩

/-- Counts an access to a resident key and tells whether that was done, which takes a bucket for its
frequency and a node in there that the key is linked to. -/
def move (lfu : Lfu κ) (key : κ) : Bool × Lfu κ :=
  match lfu.frequency? key with
  | none => (false, lfu)
  | some frequency =>
    if (lfu.buckets[frequency]?).any (·.isLinked key) then
      (true, lfu.touch key frequency)
    else
      (false, lfu)

/-- The key that would make room for a new one: the last of the bucket under the cursor. -/
def victim? (lfu : Lfu κ) : Option κ :=
  lfu.buckets[lfu.minFrequency]?.bind (·.peek? .back)

def evict (lfu : Lfu κ) : Lfu κ :=
  match lfu.victim? with
  | some victim =>
    let ⟨frequencies, buckets, minFrequency, capacity⟩ := lfu
    ⟨frequencies.erase victim, withdraw buckets minFrequency victim, minFrequency, capacity⟩
  | none => lfu

/-- Adds a key that is not resident, with frequency one. -/
def enroll (lfu : Lfu κ) (key : κ) : Lfu κ :=
  let ⟨frequencies, buckets, _, capacity⟩ := if lfu.size ≥ lfu.capacity then lfu.evict else lfu
  ⟨frequencies.insert key 1, file buckets 1 key, 1, capacity⟩

def put (lfu : Lfu κ) (key : κ) : Access × Lfu κ :=
  if lfu.capacity = 0 then
    (.error .capacity, lfu)
  else
    match lfu.move key with
    | (true, lfu) => (.ok (), lfu)
    | (false, lfu) => (.ok (), lfu.enroll key)

def get (lfu : Lfu κ) (key : κ) : Access × Lfu κ :=
  match lfu.move key with
  | (true, lfu) => (.ok (), lfu)
  | (false, lfu) => (.error .notFound, lfu)

/-! ## Reports -/

def isHot (lfu : Lfu κ) (key : κ) : Bool := lfu.frequencies.contains key

/-- The keys of one frequency, latest arrival first. -/
def bucketKeys (lfu : Lfu κ) (frequency : Nat) : List κ :=
  (lfu.buckets[frequency]?.map (·.toList)).getD []

/-- All resident keys, highest frequency first, most recent first within a frequency. -/
def hotKeys (lfu : Lfu κ) : List κ :=
  (lfu.buckets.keys.mergeSort (· ≥ ·)).flatMap lfu.bucketKeys

def diagnostics [KeyText κ] (lfu : Lfu κ) : String :=
  s!"lfu capacity={lfu.capacity} len={lfu.size} min_freq={lfu.minFrequency}\n" ++
    String.join ((lfu.buckets.keys.mergeSort (· ≤ ·)).map fun frequency ↦
      let keys := ", ".intercalate ((lfu.bucketKeys frequency).map KeyText.text)
      s!"  freq {frequency}: [" ++ keys ++ "]\n")

def check (lfu : Lfu κ) : Except String Unit := do
  let bucketed := lfu.buckets.fold (fun total _ bucket ↦ total + bucket.length) 0
  if bucketed ≠ lfu.size then
    throw s!"LFU buckets hold {bucketed} keys but index holds {lfu.size}"
  if lfu.size > lfu.capacity then
    throw s!"LFU holds {lfu.size} keys with capacity {lfu.capacity}"
  match lfu.frequencies.toList.find? fun (key, frequency) ↦
      !(lfu.buckets[frequency]?).any (·.isLinked key) with
  | some (_, frequency) =>
    throw s!"LFU entry with frequency {frequency} is not linked in its bucket"
  | none => pure ()
  if lfu.size ≠ 0 ∧ !lfu.buckets.contains lfu.minFrequency then
    throw s!"LFU min_freq {lfu.minFrequency} has no bucket"

end Lfu

end KeyHeat

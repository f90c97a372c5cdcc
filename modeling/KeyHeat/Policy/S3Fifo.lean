import KeyHeat.Container.GhostQueue
import KeyHeat.Container.KeyedList
import KeyHeat.Error
import KeyHeat.Key
import KeyHeat.Number.Convert

/-!
# Three first-in-first-out queues

New keys enter a small queue. A key that was accessed while there goes on to the main queue when
the small queue overflows; any other leaves only its fingerprint in a ghost queue. A new key
whose fingerprint is still there goes to the main queue at once. When the main queue overflows, a
clock sweep takes keys from its head: a key with accesses to its credit loses one of them and
goes to the tail, and the first key without is evicted. Keys of the main queue with accesses to
their credit are hot.
-/

namespace KeyHeat

/-- What is known of a resident key. -/
structure S3FifoEntry where
  /-- Accesses to the key's credit, at most three. -/
  frequency : UInt8
  /-- The tick of the last access, for which there is no upper bound. -/
  lastAccess : Nat
  deriving DecidableEq, Repr

structure S3Fifo (κ : Type) [BEq κ] [Hashable κ] where
  entries : Std.HashMap κ S3FifoEntry
  /-- New keys, latest first. -/
  small : KeyedList κ
  /-- Keys that have proved themselves; the clock sweep begins at the front. -/
  main : KeyedList κ
  /-- The fingerprints of keys that left the small queue without an access. -/
  ghosts : GhostQueue
  smallQuota : Nat
  mainQuota : Nat
  capacity : Nat
  /-- The number of accesses so far, failed ones included, for which there is no upper bound. -/
  tick : Nat

namespace S3Fifo

variable {κ : Type} [BEq κ] [Hashable κ]

/-! ## Construction -/

/-- The most accesses a key can have to its credit. -/
def frequencyMax : UInt8 := 3

/-- An empty separator whose capacity is shared out between the two queues. -/
def ofQuotas (smallQuota mainQuota ghostQuota : Nat) : S3Fifo κ :=
  { entries := ∅
    small := .empty
    main := .empty
    ghosts := .empty ghostQuota
    smallQuota
    mainQuota
    capacity := smallQuota + mainQuota
    tick := 0 }

/-- The room of the small queue, rounded down. -/
def smallShare (capacity : Nat) (ratio : Float) : Nat :=
  Number.truncate (Number.ofCount capacity * ratio)

/-- The room of the ghost queue, rounded to the nearest. -/
def ghostShare (capacity : Nat) (ratio : Float) : Nat :=
  Number.nearest (Number.ofCount capacity * ratio)

/-- The room of the main queue: what the small one leaves of the capacity. Where the product with
the ratio has been rounded up, the small queue takes more than there is. The queues are made with
room for one key over their quota. -/
def mainShare (capacity smallQuota : Nat) : Except Overflow Nat := do
  let mainQuota ← Number.difference capacity smallQuota
  let _ ← Number.sum smallQuota 1
  let _ ← Number.sum mainQuota 1
  pure mainQuota

def create (capacity : Nat) (smallRatio ghostRatio : Float) :
    Except (Halt BuildProblem) (S3Fifo κ) :=
  if !Number.within 0 1 smallRatio then
    .error (.refused (.ratioOutOfRange "small_ratio" smallRatio))
  else if !ghostRatio.isFinite || ghostRatio < 0 then
    .error (.refused (.ghostRatioOutOfRange ghostRatio))
  else
    let smallQuota := smallShare capacity smallRatio
    Halt.ofOverflow ((mainShare capacity smallQuota).map fun mainQuota ↦
      ofQuotas smallQuota mainQuota (ghostShare capacity ghostRatio))

/-! ## Queries -/

def size (fifo : S3Fifo κ) : Nat := fifo.entries.size

def entry? (fifo : S3Fifo κ) (key : κ) : Option S3FifoEntry := fifo.entries[key]?

def frequency? (fifo : S3Fifo κ) (key : κ) : Option UInt8 :=
  (fifo.entry? key).map (·.frequency)

/-- The tick of the last access to a resident key. -/
def lastAccess? (fifo : S3Fifo κ) (key : κ) : Option Nat :=
  (fifo.entry? key).map (·.lastAccess)

def inMain (fifo : S3Fifo κ) (key : κ) : Bool := fifo.main.contains key

def isHot (fifo : S3Fifo κ) (key : κ) : Bool :=
  fifo.inMain key && (fifo.frequency? key).any (· ≥ 1)

/-- The hot keys from the head of the main queue to its tail. -/
def hotKeys (fifo : S3Fifo κ) : List κ := fifo.main.toList.filter fifo.isHot

/-! ## Evictions -/

/-- Takes one access from the credit of the key at the head of the main queue and moves it to the
tail. -/
def giveSecondChance (fifo : S3Fifo κ) (head : κ) (entry : S3FifoEntry) : S3Fifo κ :=
  { fifo with
    entries := fifo.entries.insert head { entry with frequency := entry.frequency - 1 }
    main := fifo.main.touch .back head }

/-- Removes a key of the main queue altogether. -/
def dropFromMain (fifo : S3Fifo κ) (key : κ) : S3Fifo κ :=
  { fifo with entries := fifo.entries.erase key, main := fifo.main.erase key }

/-- The clock sweep: evicts the first key from the head on that has no access to its credit. No
key is passed over more often than a frequency can be lowered. -/
def evictFromMain (fifo : S3Fifo κ) : S3Fifo κ :=
  sweep fifo (UInt8.size * fifo.main.length)
where
  sweep (fifo : S3Fifo κ) : Nat → S3Fifo κ
    | 0 => fifo
    | fuel + 1 =>
      match fifo.main.peek? .front with
      | none => fifo
      | some head =>
        match fifo.entry? head with
        | none => sweep { fifo with main := fifo.main.erase head } fuel
        | some entry =>
          if entry.frequency = 0 then fifo.dropFromMain head
          else sweep (fifo.giveSecondChance head entry) fuel

/-- Adds a key at the tail of the main queue, which evicts one if it overflows. -/
def enterMain (fifo : S3Fifo κ) (key : κ) : S3Fifo κ :=
  let fifo := { fifo with main := fifo.main.push .back key }
  if fifo.main.length > fifo.mainQuota then fifo.evictFromMain else fifo

variable [HashMaterial κ]

/-- A key leaves the small queue: for the main queue if it was accessed there, else for good. -/
def leaveSmall (fifo : S3Fifo κ) (key : κ) : S3Fifo κ :=
  let fifo := { fifo with small := fifo.small.erase key }
  match fifo.frequency? key with
  | none => fifo
  | some frequency =>
    if frequency = 0 then
      { fifo with
        entries := fifo.entries.erase key
        ghosts := fifo.ghosts.record (fingerprint key) }
    else
      fifo.enterMain key

/-- Takes the oldest keys out of the small queue until it fits. -/
def drainSmall (fifo : S3Fifo κ) : S3Fifo κ :=
  settle fifo (fifo.small.length - fifo.smallQuota)
where
  settle (fifo : S3Fifo κ) : Nat → S3Fifo κ
    | 0 => fifo
    | excess + 1 =>
      match fifo.small.peek? .back with
      | some oldest => settle (fifo.leaveSmall oldest) excess
      | none => fifo

/-! ## Accesses -/

/-- One more access to a resident key. -/
def touch (fifo : S3Fifo κ) (key : κ) (entry : S3FifoEntry) : S3Fifo κ :=
  { fifo with
    entries := fifo.entries.insert key ⟨min (entry.frequency + 1) frequencyMax, fifo.tick⟩ }

/-- Adds a key that is not resident. -/
def enroll (fifo : S3Fifo κ) (key : κ) : S3Fifo κ :=
  let print := fingerprint key
  let fifo := { fifo with entries := fifo.entries.insert key ⟨0, fifo.tick⟩ }
  if fifo.ghosts.contains print then
    { fifo with ghosts := fifo.ghosts.erase print }.enterMain key
  else
    { fifo with small := fifo.small.push .front key }.drainSmall

/-- Every access that is not turned away for want of capacity counts as a tick. -/
def advance (fifo : S3Fifo κ) : S3Fifo κ := { fifo with tick := fifo.tick + 1 }

def put (fifo : S3Fifo κ) (key : κ) : Access × S3Fifo κ :=
  if fifo.capacity = 0 then
    (.error .capacity, fifo)
  else
    let fifo := fifo.advance
    match fifo.entry? key with
    | some entry => (.ok (), fifo.touch key entry)
    | none => (.ok (), fifo.enroll key)

def get (fifo : S3Fifo κ) (key : κ) : Access × S3Fifo κ :=
  let fifo := fifo.advance
  match fifo.entry? key with
  | some entry => (.ok (), fifo.touch key entry)
  | none => (.error .notFound, fifo)

/-! ## Reports -/

def diagnostics [KeyText κ] (fifo : S3Fifo κ) : String :=
  s!"s3_fifo capacity={fifo.capacity} small={fifo.small.length}/{fifo.smallQuota} " ++
    s!"main={fifo.main.length}/{fifo.mainQuota} " ++
    s!"ghost={fifo.ghosts.size}/{fifo.ghosts.capacity}\n" ++
    line "small" fifo.small ++ line "main" fifo.main
where
  line (label : String) (keys : KeyedList κ) : String :=
    "  " ++ label ++ ":" ++ String.join (keys.toList.map fun key ↦
      s!" {KeyText.text key}/{(fifo.frequency? key).getD 0}") ++ "\n"

/-- Whether a key is not in its queue, or has more accesses to its credit than there can be. -/
def isMisplaced (fifo : S3Fifo κ) (key : κ) (entry : S3FifoEntry) : Bool :=
  let queue := if fifo.inMain key then fifo.main else fifo.small
  !queue.isLinked key || entry.frequency > frequencyMax

def check (fifo : S3Fifo κ) : Except String Unit := do
  if fifo.size ≠ fifo.small.length + fifo.main.length then
    throw (s!"index holds {fifo.size} keys but small {fifo.small.length} + " ++
      s!"main {fifo.main.length}")
  if fifo.small.length > fifo.smallQuota ∨ fifo.main.length > fifo.mainQuota then
    throw (s!"queues over capacity: small {fifo.small.length}/{fifo.smallQuota} " ++
      s!"main {fifo.main.length}/{fifo.mainQuota}")
  fifo.small.check
  fifo.main.check
  fifo.ghosts.check
  match fifo.entries.toList.find? fun (key, entry) ↦ fifo.isMisplaced key entry with
  | some (key, entry) =>
    let queue := if fifo.inMain key then "Main" else "Small"
    throw s!"entry in {queue} with freq {entry.frequency} is not linked"
  | none => pure ()

end S3Fifo

end KeyHeat

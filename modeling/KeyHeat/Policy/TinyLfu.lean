import KeyHeat.Container.KeyedList
import KeyHeat.Error
import KeyHeat.Sketch.Bloom
import KeyHeat.Sketch.Packed

/-!
# Window TinyLFU

A small recency window stands before a main area of two recency lists, probation and protected.
A key that overflows the window is a candidate for the main area. While the main area has room it
is admitted to probation. Then it is dropped, but remembered, if the doorkeeper has not seen it,
and otherwise contests the place of the last key of probation (of protected, if probation is
empty), which it takes if the sketch gives it at least the frequency of that key. An access to a
key on probation promotes it to protected, whose last key makes room for it by going back on
probation. After every `samplePeriod` accesses all frequencies are halved and the doorkeeper
forgets what it has seen. The keys of the main area are hot.
-/

namespace KeyHeat

/-- The tuning of a Window TinyLFU separator. -/
structure TinyLfuTuning where
  /-- The share of the capacity given to the window. -/
  windowRatio : Float := 0.01
  /-- The share of the main area given to protected keys. -/
  protectedRatio : Float := 0.8
  /-- The number of accesses between two halvings; ten times the capacity unless given. -/
  sampleSize : Option Nat := none
  /-- The seed of the row hashes of the sketch. -/
  seed : UInt64 := 0

structure TinyLfu (κ : Type) [BEq κ] [Hashable κ] where
  window : KeyedList κ
  probation : KeyedList κ
  guarded : KeyedList κ
  windowQuota : Nat
  mainQuota : Nat
  guardedQuota : Nat
  capacity : Nat
  sketch : PackedSketch
  doorkeeper : Bloom
  samplePeriod : Nat
  /-- Accesses since the last halving. -/
  accesses : Nat
  /-- The number of halvings so far, for which there is no upper bound. -/
  agings : Nat

namespace TinyLfu

variable {κ : Type} [BEq κ] [Hashable κ]

/-! ## Construction -/

def doorkeeperRate : Float := 0.01

def sampleFactor : Nat := 10

/-- An empty separator with the given division of its capacity. -/
def ofQuotas (windowQuota mainQuota guardedQuota samplePeriod : Nat) (seed : UInt64) :
    TinyLfu κ :=
  let capacity := windowQuota + mainQuota
  { window := .empty
    probation := .empty
    guarded := .empty
    windowQuota
    mainQuota
    guardedQuota
    capacity
    sketch := .empty capacity seed
    doorkeeper := .empty capacity doorkeeperRate
    samplePeriod
    accesses := 0
    agings := 0 }

/-- The part of the capacity given to the window: at least one key if there is room for any. -/
def windowShare (capacity : Nat) (ratio : Float) : Nat :=
  min (max (Number.ceiling (Number.ofCount capacity * ratio)) 1) capacity

def checkRatio (name : String) (ratio : Float) : Except BuildProblem Unit :=
  if Number.within 0 1 ratio then .ok () else .error (.ratioOutOfRange name ratio)

/-- The part of the main area given to protected keys, rounded down. -/
def guardedShare (mainQuota : Nat) (ratio : Float) : Nat :=
  Number.truncate (Number.ofCount mainQuota * ratio)

/-- Whether the segments and the sketch can be made in these sizes: the window has room for one key
over its quota, probation for what the protected keys leave of the main area, and the rows of the
sketch are powers of two. -/
def checkSizes (windowQuota mainQuota guardedQuota : Nat) : Except Overflow Unit := do
  let _ ← Number.sum windowQuota 1
  let _ ← Number.difference mainQuota guardedQuota
  let _ ← Number.powerFrom (max (windowQuota + mainQuota) 8)
  pure ()

/-- An empty separator divided as the tuning asks. -/
def create (capacity : Nat) (tuning : TinyLfuTuning) :
    Except (Halt BuildProblem) (TinyLfu κ) := do
  Halt.ofRefusal (checkRatio "window_ratio" tuning.windowRatio)
  Halt.ofRefusal (checkRatio "protected_ratio" tuning.protectedRatio)
  if tuning.sampleSize = some 0 then
    throw (.refused .sampleSizeZero)
  let windowQuota := windowShare capacity tuning.windowRatio
  let mainQuota := capacity - windowQuota
  let guardedQuota := guardedShare mainQuota tuning.protectedRatio
  let byDefault := min (capacity * sampleFactor) (Number.wordLimit - 1)
  let samplePeriod := max (tuning.sampleSize.getD byDefault) 1
  Halt.ofOverflow (checkSizes windowQuota mainQuota guardedQuota)
  pure (ofQuotas windowQuota mainQuota guardedQuota samplePeriod tuning.seed)

/-! ## Segments -/

/-- The number of keys in the main area. -/
def mainSize (cache : TinyLfu κ) : Nat := cache.probation.length + cache.guarded.length

def size (cache : TinyLfu κ) : Nat := cache.window.length + cache.mainSize

/-- Moves a key, taken from probation, to the front of protected, whose last key goes back on
probation if need be. With no room for protected keys it returns to the front of probation. -/
def promote (cache : TinyLfu κ) (key : κ) : TinyLfu κ :=
  if cache.guardedQuota = 0 then
    { cache with probation := cache.probation.push .front key }
  else if cache.guarded.length ≥ cache.guardedQuota then
    match cache.guarded.pop .back with
    | (some demoted, guarded) =>
      { cache with
        probation := cache.probation.push .front demoted
        guarded := guarded.push .front key }
    | (none, guarded) => { cache with guarded := guarded.push .front key }
  else
    { cache with guarded := cache.guarded.push .front key }

/-- The key of the main area that a candidate has to beat. -/
def victim? (cache : TinyLfu κ) : Option κ :=
  (cache.probation.peek? .back).or (cache.guarded.peek? .back)

/-- Puts a candidate in front of probation in place of a key of the main area. -/
def replace (cache : TinyLfu κ) (victim candidate : κ) : TinyLfu κ :=
  match cache.probation.remove victim with
  | (true, probation) => { cache with probation := probation.push .front candidate }
  | (false, probation) =>
    { cache with
      guarded := cache.guarded.erase victim
      probation := probation.push .front candidate }

variable [HashMaterial κ]

/-- The sketch's frequency of `key`. -/
def frequency (cache : TinyLfu κ) (key : κ) : Nat := cache.sketch.frequency key

/-- Decides over a candidate that left the window. -/
def contest (cache : TinyLfu κ) (candidate : κ) : TinyLfu κ :=
  if cache.mainSize < cache.mainQuota then
    { cache with probation := cache.probation.push .front candidate }
  else
    match cache.victim? with
    | none => cache
    | some victim =>
      let (seen, doorkeeper) := cache.doorkeeper.allow candidate
      let cache := { cache with doorkeeper }
      if seen ∧ cache.frequency candidate ≥ cache.frequency victim then
        cache.replace victim candidate
      else
        cache

/-- Puts a new key in front of the window, and decides over the key that overflows it. -/
def enter (cache : TinyLfu κ) (key : κ) : TinyLfu κ :=
  let cache := { cache with window := cache.window.push .front key }
  if cache.window.length > cache.windowQuota then
    match cache.window.pop .back with
    | (some candidate, window) => { cache with window }.contest candidate
    | (none, window) => { cache with window }
  else
    cache

/-- Counts an access in the sketch, after aging it if an aging is due. -/
def count (cache : TinyLfu κ) (key : κ) : TinyLfu κ :=
  let due := cache.accesses + 1 ≥ cache.samplePeriod
  let cache :=
    if due then
      { cache with
        sketch := cache.sketch.halve
        doorkeeper := cache.doorkeeper.clear
        accesses := 0
        agings := cache.agings + 1 }
    else
      { cache with accesses := cache.accesses + 1 }
  { cache with sketch := cache.sketch.increment key }

/-- Moves the key of an access between the segments. Each segment is asked in turn whether the key
is there to be moved. -/
def place (cache : TinyLfu κ) (key : κ) : TinyLfu κ :=
  match cache.window.move .front key with
  | (true, window) => { cache with window }
  | (false, window) =>
    match cache.guarded.move .front key with
    | (true, guarded) => { cache with window, guarded }
    | (false, guarded) =>
      match cache.probation.remove key with
      | (true, probation) => { cache with window, guarded, probation }.promote key
      | (false, probation) => { cache with window, guarded, probation }.enter key

/-- Reads and writes alike are recorded, unless there is no capacity. -/
def access (cache : TinyLfu κ) (key : κ) : Access × TinyLfu κ :=
  if cache.capacity = 0 then (.error .capacity, cache)
  else (.ok (), (cache.count key).place key)

/-! ## Reports -/

def isHot (cache : TinyLfu κ) (key : κ) : Bool :=
  cache.guarded.contains key || cache.probation.contains key

/-- Protected keys, then those on probation, each most recent first. -/
def hotKeys (cache : TinyLfu κ) : List κ := cache.guarded.toList ++ cache.probation.toList

def diagnostics [KeyText κ] (cache : TinyLfu κ) : String :=
  s!"w_tinylfu capacity={cache.capacity} window={cache.window.length}/{cache.windowQuota} " ++
    s!"probation={cache.probation.length} " ++
    s!"protected={cache.guarded.length}/{cache.guardedQuota} agings={cache.agings}\n" ++
    line "window" cache.window ++ line "probation" cache.probation ++
    line "protected" cache.guarded
where
  line (label : String) (keys : KeyedList κ) : String :=
    "  " ++ label ++ ":" ++ String.join (keys.toList.map fun key ↦
      s!" {KeyText.text key}~{cache.frequency key}") ++ "\n"

def check (cache : TinyLfu κ) : Except String Unit := do
  cache.window.check
  cache.probation.check
  cache.guarded.check
  if cache.window.length > cache.windowQuota then
    throw s!"window holds {cache.window.length} keys with capacity {cache.windowQuota}"
  if cache.guarded.length > cache.guardedQuota then
    throw s!"protected holds {cache.guarded.length} keys with capacity {cache.guardedQuota}"
  if cache.mainSize > cache.mainQuota then
    throw s!"main holds {cache.mainSize} keys with capacity {cache.mainQuota}"
  let overlap :=
    (cache.window.toList ++ cache.probation.toList).countP cache.guarded.contains +
      cache.window.toList.countP cache.probation.contains
  if overlap ≠ 0 then
    throw s!"{overlap} keys are resident in two segments"

end TinyLfu

end KeyHeat

import KeyHeat.Container.KeyedList
import KeyHeat.Sketch.CountMin

/-!
# A recency window gated by a Count-Min sketch

Every access is counted in a sketch and moves its key to the front of a recency window. A key is
hot while it is in the window and its estimate has reached the threshold. The sketch never
undercounts, so a key in the window whose true count has reached the threshold is always
reported. An unbounded window keeps every key it has seen.
-/

namespace KeyHeat

structure SketchWindow (κ : Type) [BEq κ] [Hashable κ] where
  sketch : CountMin
  /-- The keys of the window, most recent first. -/
  window : KeyedList κ
  windowSize : Nat
  threshold : Nat
  /-- Whether the window is limited to `windowSize` keys. -/
  bounded : Bool

namespace SketchWindow

variable {κ : Type} [BEq κ] [Hashable κ]

def create (windowSize : Nat) (epsilon delta : Float) (threshold : Nat) (bounded : Bool) :
    Except BuildProblem (SketchWindow κ) :=
  if threshold = 0 then
    .error .thresholdZero
  else
    (CountMin.ofErrorBounds epsilon delta).map fun sketch ↦
      ⟨sketch, .empty, windowSize, threshold, bounded⟩

def size (sketch : SketchWindow κ) : Nat := sketch.window.length

def capacity? (sketch : SketchWindow κ) : Option Nat :=
  if sketch.bounded then some sketch.windowSize else none

variable [HashMaterial κ]

/-- The estimated number of accesses to `key`, never below the true one. -/
def estimate (sketch : SketchWindow κ) (key : κ) : Nat := sketch.sketch.estimate key

/-- Counts an access and moves its key to the front of the window. -/
def record (sketch : SketchWindow κ) (key : κ) : SketchWindow κ :=
  let ⟨counts, window, windowSize, threshold, bounded⟩ := sketch
  let window := window.push .front key
  ⟨counts.increment key, if bounded then window.trim windowSize else window, windowSize,
    threshold, bounded⟩

/-- Reads and writes alike are recorded, unless the window can hold no key. -/
def access (sketch : SketchWindow κ) (key : κ) : Access × SketchWindow κ :=
  if sketch.bounded ∧ sketch.windowSize = 0 then (.error .capacity, sketch)
  else (.ok (), sketch.record key)

def isHot (sketch : SketchWindow κ) (key : κ) : Bool :=
  sketch.window.contains key && sketch.estimate key ≥ sketch.threshold

/-- The hot keys, most recent first. -/
def hotKeys (sketch : SketchWindow κ) : List κ :=
  sketch.window.toList.filter fun key ↦ sketch.estimate key ≥ sketch.threshold

def diagnostics [KeyText κ] (sketch : SketchWindow κ) : String :=
  let limit := if sketch.bounded then "" else " (unbounded)"
  s!"sketch_window width={sketch.sketch.width} depth={sketch.sketch.depth} " ++
    s!"threshold={sketch.threshold} window={sketch.size}/{sketch.windowSize}{limit}\n" ++
    String.join (sketch.window.toList.map fun key ↦
      s!"  {KeyText.text key}: ~{sketch.estimate key}\n")

end SketchWindow

end KeyHeat

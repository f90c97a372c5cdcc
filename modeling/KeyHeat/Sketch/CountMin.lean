import KeyHeat.Key
import KeyHeat.Number.Convert
import KeyHeat.Error

/-!
# Count-Min sketches

A table of `depth` rows of `width` saturating counters. Each row hashes a key, under a seed of
its own, to one column; counting a key raises its counter in every row, and the estimate is the
least of them, which is never below the true count.
-/

namespace KeyHeat

structure CountMin where
  width : Nat
  /-- The hash seed of each row. -/
  seeds : List UInt64
  /-- The rows one after another. -/
  counters : Array Nat

namespace CountMin

/-- The largest number of counters a sketch may have. -/
def counterBudget : Nat := 16777216

/-- The value at which a counter stays. -/
def counterMax : Nat := Number.wordLimit - 1

/-! ## Dimensions -/

/-- The row width for an additive error of `epsilon` times the number of counted accesses. -/
def widthFor (epsilon : Float) : Except BuildProblem Nat :=
  if !epsilon.isFinite || epsilon <= 0 || epsilon > 1 then
    .error (.epsilonOutOfRange epsilon)
  else
    let quotient := 2 / epsilon
    if quotient > Number.ofCount counterBudget then
      .error (.epsilonTooSmall epsilon (Number.roundUp quotient) counterBudget)
    else
      .ok (Number.ceiling quotient)

/-- The number of rows for a failure probability of `delta`, at least one. -/
def depthFor (delta : Float) : Except BuildProblem Nat :=
  if !delta.isFinite || delta <= 0 || delta >= 1 then
    .error (.deltaOutOfRange delta)
  else
    .ok (max (Number.ceiling (1 / delta).log) 1)

def rowSeed (row : Nat) : UInt64 :=
  Hash.mix64 ((UInt64.ofNat row + 1) * 0x9e3779b9)

def depth (sketch : CountMin) : Nat := sketch.seeds.length

/-- An empty sketch of the given dimensions. -/
def ofDimensions (width depth : Nat) : Except BuildProblem CountMin :=
  if width = 0 ∨ depth = 0 then
    .error (.emptySketch width depth)
  else if width * depth > counterBudget then
    .error (.sketchTooLarge width depth counterBudget)
  else
    .ok ⟨width, (List.range depth).map rowSeed, Array.replicate (width * depth) 0⟩

/-- An empty sketch sized by its error bounds. -/
def ofErrorBounds (epsilon delta : Float) : Except BuildProblem CountMin := do
  let width ← widthFor epsilon
  let depth ← depthFor delta
  ofDimensions width depth

/-! ## Counting -/

variable {κ : Type} [HashMaterial κ]

/-- The column of `key` in the row with the given seed. -/
def column (width : Nat) (seed : UInt64) (key : κ) : Nat :=
  (seededHash seed key).toNat % width

/-- The positions of the counters of `key`, one in each row. -/
def slots (sketch : CountMin) (key : κ) : List Nat :=
  sketch.seeds.zipIdx.map fun (seed, row) ↦ row * sketch.width + column sketch.width seed key

/-- Raises every counter of `key`, up to the value at which counters stay. -/
def increment (sketch : CountMin) (key : κ) : CountMin :=
  let slots := sketch.slots key
  let ⟨width, seeds, counters⟩ := sketch
  ⟨width, seeds, slots.foldl (fun counters slot ↦
    counters.modify slot fun count ↦ min (count + 1) counterMax) counters⟩

/-- The least counter of `key`. -/
def estimate (sketch : CountMin) (key : κ) : Nat :=
  ((sketch.slots key).map fun slot ↦ sketch.counters.getD slot 0).min?.getD 0

end CountMin

end KeyHeat

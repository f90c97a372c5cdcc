import KeyHeat.Key
import KeyHeat.Hash.Xoshiro

/-!
# Packed frequency sketches

Four rows of four-bit counters, sixteen of them to a word, with a power of two of counters in
each row. A counter stays at fifteen. Halving shifts every word by one bit and masks the bits
that crossed from one counter into the next, so all counters are halved at once.
-/

namespace KeyHeat

structure PackedSketch where
  /-- Counters in each row. -/
  width : Nat
  /-- The hash seeds of the four rows. -/
  seeds : List UInt64
  /-- The rows one after another. -/
  words : Array UInt64

namespace PackedSketch

def rowCount : Nat := 4

def countersPerWord : Nat := 16

/-- The value at which a counter stays. -/
def counterMax : UInt64 := 15

/-- All bits but the highest of each counter. -/
def halveMask : UInt64 := 0x7777777777777777

def wordsPerRow (sketch : PackedSketch) : Nat :=
  (sketch.width + (countersPerWord - 1)) / countersPerWord

/-- An empty sketch with at least `width` counters in each row: a power of two, at least eight. -/
def empty (width : Nat) (seed : UInt64) : PackedSketch :=
  let width := (max width 8).nextPowerOfTwo
  let wordsPerRow := (width + (countersPerWord - 1)) / countersPerWord
  ⟨width, (Hash.Xoshiro.ofSeed seed).draws rowCount, Array.replicate (wordsPerRow * rowCount) 0⟩

variable {κ : Type} [HashMaterial κ]

/-- The word that holds a counter, and the number of bits below it there. -/
structure Position where
  word : Nat
  shift : UInt64
  deriving DecidableEq, Repr

/-- Where the counter of column `column` of row `row` is stored. -/
def locate (sketch : PackedSketch) (row column : Nat) : Position :=
  ⟨row * sketch.wordsPerRow + column / countersPerWord,
    UInt64.ofNat (column % countersPerWord * 4)⟩

/-- The column of `key` in the row with the given seed: the low bits of its hash. -/
def column (sketch : PackedSketch) (seed : UInt64) (key : κ) : Nat :=
  (seededHash seed key).toNat % sketch.width

/-- The positions of the counters of `key`, one in each row. -/
def positions (sketch : PackedSketch) (key : κ) : List Position :=
  sketch.seeds.zipIdx.map fun (seed, row) ↦ sketch.locate row (sketch.column seed key)

/-- The counter `shift` bits up in `word`. -/
def counterIn (word shift : UInt64) : UInt64 := (word >>> shift) &&& counterMax

/-- Raises one counter of a word unless it is at its maximum. -/
def raise (word shift : UInt64) : UInt64 :=
  if counterIn word shift < counterMax then word + (1 <<< shift) else word

def increment (sketch : PackedSketch) (key : κ) : PackedSketch :=
  let positions := sketch.positions key
  let ⟨width, seeds, words⟩ := sketch
  ⟨width, seeds, positions.foldl (fun words position ↦
    words.modify position.word (raise · position.shift)) words⟩

/-- The least counter of `key`. -/
def frequency (sketch : PackedSketch) (key : κ) : Nat :=
  ((sketch.positions key).map fun position ↦
    (counterIn (sketch.words.getD position.word 0) position.shift).toNat).min?.getD 0

def halveWord (word : UInt64) : UInt64 := (word >>> 1) &&& halveMask

/-- Halves every counter. -/
def halve (sketch : PackedSketch) : PackedSketch :=
  let ⟨width, seeds, words⟩ := sketch
  ⟨width, seeds, words.map halveWord⟩

end PackedSketch

end KeyHeat

import KeyHeat.Key
import KeyHeat.Number.Convert

/-!
# Bloom filters

A set of keys that may answer yes for a key that was never added, but never no for one that was.
A key sets up to thirty bits, found by stepping from its hash by an odd rotation of it.
-/

namespace KeyHeat

structure Bloom where
  bitCount : Nat
  /-- Bits set for each key. -/
  hashCount : Nat
  words : Array UInt64

namespace Bloom

def hashCountMax : Nat := 30

def hashSeed : UInt64 := 0xbc9f1d34

/-- The natural logarithm of two as a double. -/
def ln2 : Float := 0.6931471805599453

/-- A usable false-positive rate: positive and at most one half, one percent for lack of a
better one. -/
def effectiveRate (rate : Float) : Float :=
  if rate.isFinite && rate > 0 then
    if rate > 0.5 then 0.5 else rate
  else
    0.01

/-- An empty filter sized for `expected` keys at a false-positive rate. It has at least 64 bits,
and each key sets at least one and at most thirty of them. -/
def empty (expected : Nat) (rate : Float) : Bloom :=
  let n := Number.ofCount (max expected 1)
  let bitCount := max (Number.ceiling ((-n * (effectiveRate rate).log) / (ln2 * ln2))) 64
  let hashes := Number.nearest ((Number.ofCount bitCount / n) * ln2)
  ⟨bitCount, max 1 (min hashes hashCountMax), Array.replicate ((bitCount + 63) / 64) 0⟩

/-- The word that holds a bit, and the bit's place in it. -/
def locate (bit : Nat) : Nat × UInt64 := (bit / 64, 1 <<< UInt64.ofNat (bit % 64))

/-- `count` positions from `hash` on, in steps of `step`. -/
def bitsFrom (bitCount : Nat) (step : UInt64) (hash : UInt64) : Nat → List Nat
  | 0 => []
  | count + 1 => hash.toNat % bitCount :: bitsFrom bitCount step (hash + step) count

variable {κ : Type} [HashMaterial κ]

/-- The bits of `key`. -/
def bits (filter : Bloom) (key : κ) : List Nat :=
  let hash := seededHash hashSeed key
  bitsFrom filter.bitCount (Hash.rotateRight hash 17 ||| 1) hash filter.hashCount

def testBit (words : Array UInt64) (bit : Nat) : Bool :=
  let (word, mask) := locate bit
  words.getD word 0 &&& mask != 0

def setBit (words : Array UInt64) (bit : Nat) : Array UInt64 :=
  let (word, mask) := locate bit
  words.modify word (· ||| mask)

def contains (filter : Bloom) (key : κ) : Bool :=
  (filter.bits key).all (testBit filter.words)

def insert (filter : Bloom) (key : κ) : Bloom :=
  let bits := filter.bits key
  let ⟨bitCount, hashCount, words⟩ := filter
  ⟨bitCount, hashCount, bits.foldl setBit words⟩

/-- Whether `key` had been seen, and the filter in which it has been. -/
def allow (filter : Bloom) (key : κ) : Bool × Bloom :=
  if filter.contains key then (true, filter) else (false, filter.insert key)

/-- Forgets all keys. -/
def clear (filter : Bloom) : Bloom :=
  { filter with words := Array.replicate filter.words.size 0 }

end Bloom

end KeyHeat

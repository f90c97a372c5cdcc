/-!
# Seeded hashing of key material

Sketches, membership filters and fingerprints all need independent 64-bit hashes of one key. A
key is absorbed word by word into a multiplicative state that starts from the seed; the state is
then rotated, combined with the seed and passed through a finaliser with good low bits, because
every sketch row reduces its hashes modulo a small width. All arithmetic is modulo `2 ^ 64`.
-/

namespace KeyHeat.Hash

/-- Rotation to the left by `count` bits, for `0 < count < 64`. -/
def rotateLeft (x count : UInt64) : UInt64 :=
  (x <<< count) ||| (x >>> (64 - count))

/-- Rotation to the right by `count` bits, for `0 < count < 64`. -/
def rotateRight (x count : UInt64) : UInt64 :=
  (x >>> count) ||| (x <<< (64 - count))

/-- The finaliser: two multiply-and-shift rounds and a last shift, each of them invertible. -/
def mix64 (z : UInt64) : UInt64 :=
  let z := (z ^^^ (z >>> 30)) * 0xbf58476d1ce4e5b9
  let z := (z ^^^ (z >>> 27)) * 0x94d049bb133111eb
  z ^^^ (z >>> 31)

/-- Absorbs one word into the running state. -/
def absorbWord (state word : UInt64) : UInt64 :=
  (state + word) * 0xf1357aea2e62a9c5

/-! ## Byte strings -/

/-- The word whose bytes, lowest first, are `bytes`. -/
def littleEndian (bytes : List UInt8) : UInt64 :=
  bytes.foldr (fun byte word ↦ (word <<< 8) ||| byte.toUInt64) 0

/-- The low half of the 128-bit product exclusive-or its high half. -/
def foldedProduct (x y : UInt64) : UInt64 :=
  let product := x.toNat * y.toNat
  UInt64.ofNat product ^^^ UInt64.ofNat (product >>> 64)

/-- Runs the pair of accumulators over the whole 16-byte blocks of `bytes`. -/
def absorbBlocks (bytes : List UInt8) (a b : UInt64) : UInt64 × UInt64 :=
  if 16 ≤ bytes.length then
    let low := littleEndian (bytes.take 8)
    let high := littleEndian ((bytes.drop 8).take 8)
    absorbBlocks (bytes.drop 16) b (foldedProduct (a ^^^ low) (0xa4093822299f31d0 ^^^ high))
  else
    (a, b)
termination_by bytes.length
decreasing_by simp; omega

/-- The digest of a byte string. Strings of at most 16 bytes are read as two overlapping words;
longer ones run through the block loop, and their last 16 bytes are read again at the end. -/
def digest (bytes : List UInt8) : UInt64 :=
  let length := bytes.length
  let a : UInt64 := 0x243f6a8885a308d3
  let b : UInt64 := 0x13198a2e03707344
  let (a, b) :=
    if 16 < length then
      let (a, b) := absorbBlocks (bytes.take (length - 1)) a b
      (a ^^^ littleEndian ((bytes.drop (length - 16)).take 8),
        b ^^^ littleEndian (bytes.drop (length - 8)))
    else if 8 ≤ length then
      (a ^^^ littleEndian (bytes.take 8), b ^^^ littleEndian (bytes.drop (length - 8)))
    else if 4 ≤ length then
      (a ^^^ littleEndian (bytes.take 4), b ^^^ littleEndian (bytes.drop (length - 4)))
    else if 0 < length then
      (a ^^^ littleEndian (bytes.take 1),
        b ^^^ ((littleEndian ((bytes.drop (length - 1)).take 1) <<< 8) |||
          littleEndian ((bytes.drop (length / 2)).take 1)))
    else
      (a, b)
  foldedProduct a b ^^^ UInt64.ofNat length

/-- Absorbs a byte string as the one word that is its digest. -/
def absorbBytes (state : UInt64) (bytes : List UInt8) : UInt64 :=
  absorbWord state (digest bytes)

end KeyHeat.Hash

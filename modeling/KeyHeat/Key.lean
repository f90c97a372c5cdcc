import KeyHeat.Hash.Mix
import KeyHeat.Text.Quoted

/-!
# Keys

The policies are generic in the key. What they need of it beyond equality is small: how a key
enters a hash (`HashMaterial`) and how it is shown in a diagnostic dump (`KeyText`). Three kinds
of key are provided: 64-bit words, text, and byte strings, which are what a trace holds.
-/

namespace KeyHeat

/-- A key as an uninterpreted byte string. -/
abbrev Bytes := List UInt8

/-- How a key is absorbed into a running hash state. -/
class HashMaterial (κ : Type) where
  absorb : UInt64 → κ → UInt64

/-- How a key is written in a diagnostic dump. -/
class KeyText (κ : Type) where
  text : κ → String

instance : HashMaterial UInt64 where
  absorb := Hash.absorbWord

/-- The bytes of a text key are followed by a byte that never occurs in one. -/
instance : HashMaterial String where
  absorb state key := Hash.absorbWord (Hash.absorbBytes state key.toUTF8.toList) 0xff

/-- A byte-string key is preceded by its length. -/
instance : HashMaterial Bytes where
  absorb state key := Hash.absorbBytes (Hash.absorbWord state (UInt64.ofNat key.length)) key

instance : KeyText UInt64 where
  text key := toString key.toNat

instance : KeyText String where
  text := Text.quoted

instance : KeyText Bytes where
  text key := "[" ++ ", ".intercalate (key.map fun byte ↦ toString byte.toNat) ++ "]"

variable {κ : Type} [HashMaterial κ]

/-- The hash of `key` under `seed`; different seeds give independent functions. -/
def seededHash (seed : UInt64) (key : κ) : UInt64 :=
  Hash.mix64 (Hash.rotateLeft (HashMaterial.absorb (Hash.absorbWord 0 seed) key) 26 ^^^ seed)

/-- The 64-bit stand-in for a key where only its identity is remembered. -/
def fingerprint (key : κ) : UInt64 :=
  seededHash 0x9e3779b97f4a7c15 key

end KeyHeat

import KeyHeat.Hash.Mix

/-!
# The xoshiro256++ generator

The row seeds of the packed frequency sketch are drawn from this generator, seeded from one word
by the splitmix64 sequence.
-/

namespace KeyHeat.Hash

structure Xoshiro where
  s0 : UInt64
  s1 : UInt64
  s2 : UInt64
  s3 : UInt64
  deriving DecidableEq, Repr

namespace Xoshiro

/-- The state words are the mixes of the first four steps of the additive sequence from `seed`. -/
def ofSeed (seed : UInt64) : Xoshiro :=
  let step : UInt64 := 0x9e3779b97f4a7c15
  ⟨mix64 (seed + step), mix64 (seed + 2 * step), mix64 (seed + 3 * step), mix64 (seed + 4 * step)⟩

/-- One draw and the generator after it. -/
def next (g : Xoshiro) : UInt64 × Xoshiro :=
  let drawn := rotateLeft (g.s0 + g.s3) 23 + g.s0
  let shifted := g.s1 <<< 17
  let s2 := g.s2 ^^^ g.s0
  let s3 := g.s3 ^^^ g.s1
  let s1 := g.s1 ^^^ s2
  let s0 := g.s0 ^^^ s3
  (drawn, ⟨s0, s1, s2 ^^^ shifted, rotateLeft s3 45⟩)

/-- The first `count` draws. -/
def draws (g : Xoshiro) : Nat → List UInt64
  | 0 => []
  | count + 1 => g.next.1 :: g.next.2.draws count

end Xoshiro

end KeyHeat.Hash

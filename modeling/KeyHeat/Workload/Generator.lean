import KeyHeat.Number.Convert

/-!
# Workload generators

Deterministic streams of keys for measuring separators: uniform keys, a hot set that is favoured
over the rest, a scan of all keys in order, and a Zipfian distribution. All draw from a 64-bit
xorshift generator. Keys are meant to lie below the size of the universe.
-/

namespace KeyHeat

/-! ## Random words -/

structure XorShift where
  state : UInt64
  deriving DecidableEq, Repr

namespace XorShift

/-- A zero seed, from which the generator would never move, is replaced by one. -/
def ofSeed (seed : UInt64) : XorShift := ⟨if seed = 0 then 1 else seed⟩

/-- One step of the state. -/
def step (x : UInt64) : UInt64 :=
  let x := x ^^^ (x <<< 13)
  let x := x ^^^ (x >>> 7)
  x ^^^ (x <<< 17)

/-- A word, and the generator after it. -/
def next (rng : XorShift) : UInt64 × XorShift :=
  let x := step rng.state
  (x, ⟨x⟩)

/-- A double between zero and one, and the generator after it. -/
def nextUnit (rng : XorShift) : Float × XorShift :=
  let (x, rng) := rng.next
  (x.toFloat * (1 / (18446744073709551615 : UInt64).toFloat), rng)

end XorShift

/-! ## The Zipfian distribution -/

/-- The constants of a Zipfian distribution over `n` keys with skew `theta`, for sampling by an
approximate inverse of its distribution function. -/
structure Zipfian where
  n : UInt64
  theta : Float
  zetaN : Float
  alpha : Float
  eta : Float

namespace Zipfian

/-- The sum of `1 / i ^ theta` for `i` from one to `n`. -/
def zeta (n : Nat) (theta : Float) : Float :=
  n.fold (fun i _ sum ↦ sum + 1 / Number.power (Number.ofCount (i + 1)) theta) 0

/-- The skew is kept below one, where the constants have a pole. -/
def create (n : UInt64) (theta : Float) : Zipfian :=
  let theta := Number.clamp 0 0.9999 theta
  let zeta2 := zeta 2 theta
  let zetaN := zeta n.toNat theta
  let alpha := 1 / (1 - theta)
  let eta := (1 - Number.power (2 / n.toFloat) (1 - theta)) / (1 - zeta2 / zetaN)
  ⟨n, theta, zetaN, alpha, eta⟩

/-- The key for a point `u` between zero and one. -/
def sample (zipf : Zipfian) (u : Float) : UInt64 :=
  let uz := u * zipf.zetaN
  if uz < 1 then 0
  else if uz < 1 + Number.power 0.5 zipf.theta then 1
  else
    let spread := zipf.n.toFloat * Number.power (zipf.eta * u - zipf.eta + 1) zipf.alpha
    min spread.toUInt64 (zipf.n - 1)

end Zipfian

/-! ## Workloads -/

inductive Workload where
  | uniform
  /-- A share of the universe takes a share of the accesses. -/
  | hotset (hotFraction hotProbability : Float)
  | scan
  | zipfian (theta : Float)

/-- Where the keys of a generator come from. -/
inductive KeySource where
  | uniform
  | hotset (hotFraction hotProbability : Float)
  | scan (position : UInt64)
  | zipfian (distribution : Zipfian)

structure Generator where
  /-- The number of keys, at least one. -/
  keyCount : UInt64
  source : KeySource
  rng : XorShift

namespace Generator

def create (keyCount : UInt64) (workload : Workload) (seed : UInt64) : Generator :=
  let keyCount := max keyCount 1
  let source := match workload with
    | .uniform => .uniform
    | .hotset hotFraction hotProbability => .hotset hotFraction hotProbability
    | .scan => .scan 0
    | .zipfian theta => .zipfian (.create keyCount theta)
  ⟨keyCount, source, .ofSeed seed⟩

def nextUnit (generator : Generator) : Float × Generator :=
  let (unit, rng) := generator.rng.nextUnit
  (unit, { generator with rng })

/-- The size of the hot set: a share of the keys rounded to the nearest, at least one key. -/
def hotSize (keyCount : UInt64) (hotFraction : Float) : UInt64 :=
  let share := Number.nearest (keyCount.toFloat * Number.clamp 0 1 hotFraction)
  min (max (UInt64.ofNat share) 1) keyCount

/-- A key, and the generator after it. -/
def nextKey (generator : Generator) : UInt64 × Generator :=
  let keyCount := generator.keyCount
  match generator.source with
  | .uniform =>
    let (word, rng) := generator.rng.next
    (word % keyCount, { generator with rng })
  | .hotset hotFraction hotProbability =>
    let hot := hotSize keyCount hotFraction
    let (unit, rng) := generator.rng.nextUnit
    let (word, rng) := rng.next
    let key :=
      if unit < Number.clamp 0 1 hotProbability then word % hot
      else if hot = keyCount then word % keyCount
      else hot + word % (keyCount - hot)
    (key, { generator with rng })
  | .scan position =>
    (position, { generator with source := .scan ((position + 1) % keyCount) })
  | .zipfian distribution =>
    let (unit, rng) := generator.rng.nextUnit
    (distribution.sample unit, { generator with rng })

end Generator

end KeyHeat

import KeyHeat.Number.Binary64

/-!
# Shortest decimals

The decimal with the fewest digits that reads back as a given double and, among those, the one
nearest to the double. A decimal reads back exactly when it lies in the interval of reals that
round to the double: half a unit to either side, a quarter below a power of two, ends included
when the significand is even. For one, two, and up to seventeen digits the two neighbours of the
value on that decimal grid are tested in exact arithmetic; the first grid with a hit wins.
-/

namespace KeyHeat.Number

/-- Which of two equally near decimals is taken. -/
inductive Tie where
  | up
  | even
  deriving DecidableEq, Repr

/-- The number `digits * 10 ^ exponent`. -/
structure Decimal where
  digits : Nat
  exponent : Int
  deriving DecidableEq, Repr

/-- The reals that round to a double, scaled so that all four numbers are whole: the value is
`value / scale`, and a real rounds to it when it lies between `low / scale` and `high / scale`. -/
structure RoundingInterval where
  low : Nat
  value : Nat
  high : Nat
  scale : Nat
  closed : Bool

/-- The interval of `significand * 2 ^ exponent`. -/
def roundingInterval (significand : Nat) (exponent : Int) : RoundingInterval :=
  let up := Nat.pow 2 exponent.toNat
  let down := Nat.pow 2 (-exponent).toNat
  let narrow := significand = fractionCount ∧ exponent > -1074
  { low := (4 * significand - if narrow then 1 else 2) * up
    value := 4 * significand * up
    high := (4 * significand + 2) * up
    scale := 4 * down
    closed := significand % 2 = 0 }

/-- Whether `num / den` lies in the interval. -/
def RoundingInterval.contains (i : RoundingInterval) (num den : Nat) : Bool :=
  if i.closed then
    i.low * den ≤ num * i.scale && num * i.scale ≤ i.high * den
  else
    i.low * den < num * i.scale && num * i.scale < i.high * den

/-- The better of the two neighbours of the value on the grid of multiples of
`10 ^ exponent`, if one of them lies in the interval. -/
def RoundingInterval.onGrid? (i : RoundingInterval) (tie : Tie) (exponent : Int) :
    Option Nat :=
  let num := Nat.pow 10 exponent.toNat
  let den := Nat.pow 10 (-exponent).toNat
  -- the value in units of the grid is `value * den / (scale * num)`
  let below := i.value * den / (i.scale * num)
  let above := below + 1
  let rest := i.value * den % (i.scale * num)
  let belowFits := i.contains (below * num) den
  let aboveFits := i.contains (above * num) den
  if belowFits && aboveFits then
    match compare (2 * rest) (i.scale * num) with
    | .lt => some below
    | .gt => some above
    | .eq =>
      match tie with
      | .up => some above
      | .even => if below % 2 = 0 then some below else some above
  else if belowFits then some below
  else if aboveFits then some above
  else none

/-- The exponent of the leading digit of `num / den`: the largest `e` with
`10 ^ e ≤ num / den`. -/
def leadingExponent (num den : Nat) : Int :=
  let guess : Int := (Nat.toDigits 10 num).length - (Nat.toDigits 10 den).length
  if Nat.pow 10 (-guess).toNat * num < Nat.pow 10 guess.toNat * den then guess - 1 else guess

/-- Moves the zeros at the end of the digits into the exponent. -/
def Decimal.trimZeros (d : Decimal) : Decimal :=
  if d.digits ≠ 0 ∧ d.digits % 10 = 0 then trimZeros ⟨d.digits / 10, d.exponent + 1⟩ else d
termination_by d.digits
decreasing_by omega

/-- The shortest decimal for the positive number `significand * 2 ^ exponent`. -/
def shortest (tie : Tie) (significand : Nat) (exponent : Int) : Decimal :=
  let interval := roundingInterval significand exponent
  let lead := leadingExponent interval.value interval.scale
  search interval lead 1 17
where
  search (interval : RoundingInterval) (lead : Int) (count : Nat) : Nat → Decimal
    | 0 => ⟨0, 0⟩
    | fuel + 1 =>
      let grid := lead - (count - 1)
      match interval.onGrid? tie grid with
      | some digits => Decimal.trimZeros ⟨digits, grid⟩
      | none => search interval lead (count + 1) fuel

end KeyHeat.Number

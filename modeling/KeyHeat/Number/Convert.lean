import KeyHeat.Number.Word

/-!
# Between doubles and counts

Sizes are computed from ratios in binary64 arithmetic and made whole again by rounding down, up
or to the nearest. All three roundings are told from the exact difference between a double and
its whole part.
-/

namespace KeyHeat.Number

/-- The double nearest to a count below `2 ^ 64`, a tie going to the even neighbour. -/
def ofCount (n : Nat) : Float := n.toUInt64.toFloat

/-- The whole part of `x`, cut to the range of 64-bit counts; zero if `x` is not a number. -/
def truncate (x : Float) : Nat := x.toUInt64.toNat

/-- The least whole number that is not below `x`, cut to the range of 64-bit counts; zero if `x`
is not a number. -/
def ceiling (x : Float) : Nat :=
  let whole := truncate x
  if ofCount whole < x then min (whole + 1) (wordLimit - 1) else whole

/-- The whole number nearest to `x`, a half going up, cut to the range of 64-bit counts; zero if
`x` is not a number. -/
def nearest (x : Float) : Nat :=
  let whole := truncate x
  if 0.5 ≤ x - ofCount whole then min (whole + 1) (wordLimit - 1) else whole

/-- A double that is not negative, rounded up to a whole one. From two to the power 53 on all
doubles are whole. -/
def roundUp (x : Float) : Float := if x < 9007199254740992 then ofCount (ceiling x) else x

/-- A power. Everything to the power zero is one, and so is one to every power. -/
def power (base exponent : Float) : Float :=
  if exponent == 0 || base == 1 then 1 else base.pow exponent

/-- Whether `low ≤ x` and `x ≤ high`, which no NaN satisfies. -/
def within (low high x : Float) : Bool := low ≤ x && x ≤ high

/-- The nearest value to `x` between `low` and `high`; a NaN stays one. -/
def clamp (low high x : Float) : Float :=
  if x < low then low else if high < x then high else x

end KeyHeat.Number

/-!
# Doubles as exact numbers

A double is a NaN, an infinity, or a sign with `significand * 2 ^ exponent`, read off its bits.
-/

namespace KeyHeat.Number

inductive Binary64 where
  | nan
  | infinite (negative : Bool)
  | finite (negative : Bool) (significand : Nat) (exponent : Int)
  deriving DecidableEq, Repr

/-- The number of fractions of fifty-two bits. -/
def fractionCount : Nat := 4503599627370496

/-- Decodes the sign, the eleven exponent bits and the fifty-two fraction bits. -/
def Binary64.ofBits (bits : UInt64) : Binary64 :=
  let negative := bits.toNat / fractionCount / 2048 == 1
  let biased : Nat := bits.toNat / fractionCount % 2048
  let fraction : Nat := bits.toNat % fractionCount
  if biased = 2047 then
    if fraction = 0 then .infinite negative else .nan
  else if biased = 0 then
    .finite negative fraction (-1074)
  else
    .finite negative (fractionCount + fraction) ((biased : Int) - 1075)

def Binary64.ofFloat (x : Float) : Binary64 := ofBits x.toBits

end KeyHeat.Number

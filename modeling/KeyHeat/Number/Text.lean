import KeyHeat.Number.Shortest

/-!
# The text of a double

Both texts print the shortest decimal that reads back. They differ in where positional notation
ends, in the mark of a whole number and in how a tie between two shortest decimals is broken;
those choices are gathered in one record for each.
-/

namespace KeyHeat.Number

structure FloatFormat where
  tie : Tie
  /-- Whether a number is written positionally, given the exponent of its leading digit. -/
  positional : Int → Bool
  /-- What follows the digits of a whole number in positional notation. -/
  wholeMark : String

/-- Range messages write every number positionally and whole numbers without a point. -/
def messageFormat : FloatFormat where
  tie := .up
  positional _ := true
  wholeMark := ""

/-- Document values are positional from `1e-5` to below `1e16`, with a digit after the point. -/
def documentFormat : FloatFormat where
  tie := .even
  positional lead := -5 ≤ lead && lead < 16
  wholeMark := ".0"

def digitText (n : Nat) : String := toString n

def zeros (count : Nat) : String := String.ofList (List.replicate count '0')

/-- Positional notation: digits, with zeros up to the units place or after the point. -/
def positionalText (format : FloatFormat) (d : Decimal) : String :=
  let digits := digitText d.digits
  if 0 ≤ d.exponent then
    digits ++ zeros d.exponent.toNat ++ format.wholeMark
  else
    let places := (-d.exponent).toNat
    if places < digits.length then
      let whole := digits.length - places
      String.ofList (digits.toList.take whole) ++ "." ++
        String.ofList (digits.toList.drop whole)
    else
      "0." ++ zeros (places - digits.length) ++ digits

/-- Exponent notation: one digit before the point, the exponent always signed. -/
def exponentText (d : Decimal) : String :=
  let digits := (digitText d.digits).toList
  let lead := d.exponent + (digits.length - 1)
  let fraction := match digits.drop 1 with
    | [] => ""
    | rest => "." ++ String.ofList rest
  let sign := if lead < 0 then "-" else "+"
  String.ofList (digits.take 1) ++ fraction ++ "e" ++ sign ++ toString lead.natAbs

/-- The text of a double in the given format. -/
def FloatFormat.text (format : FloatFormat) (x : Float) : String :=
  match Binary64.ofFloat x with
  | .nan => "NaN"
  | .infinite negative => if negative then "-inf" else "inf"
  | .finite negative significand exponent =>
    let sign := if negative then "-" else ""
    if significand = 0 then
      sign ++ "0" ++ format.wholeMark
    else
      let d := shortest format.tie significand exponent
      let lead := d.exponent + ((digitText d.digits).length - 1)
      sign ++ if format.positional lead then positionalText format d else exponentText d

end KeyHeat.Number

import KeyHeat.Json.Value
import KeyHeat.Text.Quoted

/-!
# Faults of JSON texts

A text can be malformed as JSON, or be well-formed as far as it has been read and not hold what
was expected there. Only the second kind says what it found.
-/

namespace KeyHeat

/-- What stands where something else was expected. -/
inductive JsonFound where
  | null
  | bool (b : Bool)
  | number (n : JsonNumber)
  | string (s : String)
  | sequence
  | map

def JsonFound.text : JsonFound → String
  | null => "null"
  | bool b => s!"boolean `{b}`"
  | number (.double x) => s!"floating point `{Number.documentFormat.text x}`"
  | number n => s!"integer `{n.text}`"
  | string s => s!"string {Text.quoted s}"
  | sequence => "sequence"
  | map => "map"

inductive JsonMismatch where
  | missingField (name : String)
  | duplicateField (name : String)
  | wrongType (found : JsonFound) (expected : String)
  /-- A number of the right type whose value is not acceptable. -/
  | wrongValue (found : JsonNumber) (expected : String)
  /-- An array form with too few elements. -/
  | wrongLength (length : Nat) (expected : String)

def JsonMismatch.text : JsonMismatch → String
  | missingField name => s!"missing field `{name}`"
  | duplicateField name => s!"duplicate field `{name}`"
  | wrongType found expected => s!"invalid type: {found.text}, expected {expected}"
  | wrongValue found expected =>
    s!"invalid value: {(JsonFound.number found).text}, expected {expected}"
  | wrongLength length expected => s!"invalid length {length}, expected {expected}"

inductive JsonFault where
  /-- Not JSON, or beyond the limits on nesting and on the range of numbers. -/
  | malformed
  | mismatch (what : JsonMismatch)

end KeyHeat

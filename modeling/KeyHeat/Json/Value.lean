import KeyHeat.Number.Convert
import KeyHeat.Number.Text

/-!
# JSON values

A number is kept as a whole number where it is written as one that fits 64 bits, and as a double
otherwise. The members of an object are kept in the order of their names; of several members of
one name the last counts. `JsonValue.text` is the compact form.
-/

namespace KeyHeat

inductive JsonNumber where
  /-- A whole number below `2 ^ 64`. -/
  | natural (n : Nat)
  /-- The number `-n`, for `n` from one to `2 ^ 63`. -/
  | negative (n : Nat)
  | double (x : Float)

namespace JsonNumber

/-- The number as a double, rounded to the nearest one if need be. -/
def toFloat : JsonNumber → Float
  | natural n => Number.ofCount n
  | negative n => -Number.ofCount n
  | double x => x

def text : JsonNumber → String
  | natural n => toString n
  | negative n => "-" ++ toString n
  | double x => Number.documentFormat.text x

end JsonNumber

inductive JsonValue where
  | null
  | bool (b : Bool)
  | number (n : JsonNumber)
  | string (s : String)
  | array (elements : List JsonValue)
  | object (members : List (String × JsonValue))

namespace JsonValue

/-! ## Access -/

def isNull : JsonValue → Bool
  | null => true
  | _ => false

def bool? : JsonValue → Option Bool
  | bool b => some b
  | _ => none

/-- A whole number that is not negative. -/
def natural? : JsonValue → Option Nat
  | number (.natural n) => some n
  | _ => none

/-- Any number, as a double. -/
def float? : JsonValue → Option Float
  | number n => some n.toFloat
  | _ => none

/-- Sets the member `name`, keeping the members in the order of their names. -/
def setMember (name : String) (value : JsonValue) :
    List (String × JsonValue) → List (String × JsonValue)
  | [] => [(name, value)]
  | (other, old) :: rest =>
    if name < other then (name, value) :: (other, old) :: rest
    else if name = other then (name, value) :: rest
    else (other, old) :: setMember name value rest

/-! ## Text -/

def hexByte (n : Nat) : List Char := [Nat.digitChar (n / 16), Nat.digitChar (n % 16)]

/-- Quotes, backslashes and control characters are escaped, the latter by a letter where there is
one; all else stands for itself. -/
def escapeChar (c : Char) : List Char :=
  match c with
  | '"' => ['\\', '"']
  | '\\' => ['\\', '\\']
  | '\x08' => ['\\', 'b']
  | '\x0c' => ['\\', 'f']
  | '\n' => ['\\', 'n']
  | '\r' => ['\\', 'r']
  | '\t' => ['\\', 't']
  | c => if c.toNat < 0x20 then ['\\', 'u', '0', '0'] ++ hexByte c.toNat else [c]

def stringText (s : String) : String :=
  String.ofList ('"' :: s.toList.flatMap escapeChar ++ ['"'])

mutual

/-- The compact form: no blanks, members in the order of their names. -/
def text : JsonValue → String
  | null => "null"
  | bool b => toString b
  | number n => n.text
  | string s => stringText s
  | array elements => "[" ++ ",".intercalate (elementTexts elements) ++ "]"
  | object members => "\x7b" ++ ",".intercalate (memberTexts members) ++ "\x7d"

def elementTexts : List JsonValue → List String
  | [] => []
  | element :: rest => element.text :: elementTexts rest

def memberTexts : List (String × JsonValue) → List String
  | [] => []
  | (name, value) :: rest => (stringText name ++ ":" ++ value.text) :: memberTexts rest

end

end JsonValue

end KeyHeat

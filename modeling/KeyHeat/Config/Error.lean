import KeyHeat.Error
import KeyHeat.Json.Fault

/-!
# Configuration errors

Why a configuration cannot be used. Errors in an entry name its position in the list of entries,
and errors in one of its parameters the parameter as well.
-/

namespace KeyHeat

/-- What is wrong with a parameter of an entry. -/
inductive ParamProblem where
  | missing
  | expected (what : String) (got : JsonValue)
  | zero
  | build (problem : BuildProblem)

def ParamProblem.message : ParamProblem → String
  | missing => "missing"
  | expected what got => "expected " ++ what ++ ", got " ++ got.text
  | zero => "must be at least 1"
  | build problem => problem.message

inductive ConfigError where
  /-- The file cannot be read as text. -/
  | unreadable (path reason : String)
  | fault (fault : JsonFault)
  | portionOutOfRange (portion : Float)
  /-- The parameters of the entry at a position are not an object. -/
  | paramsNotObject (index : Nat) (got : JsonValue)
  /-- A parameter of the entry at a position has a problem, given by its text. -/
  | param (index : Nat) (field reason : String)
  /-- An error, given by its text, at the entry at a position. -/
  | entry (index : Nat) (reason : String)
  | build (problem : BuildProblem)
  | other (text : String)

namespace ConfigError

def malformedText : String := "malformed configuration"

def message : ConfigError → String
  | unreadable path reason => "cannot read " ++ path ++ ": " ++ reason
  | fault .malformed => malformedText
  | fault (.mismatch what) => malformedText ++ ": " ++ what.text
  | portionOutOfRange portion =>
    "hot_key_portion must be in [0.0, 1.0], got " ++ BuildProblem.floatText portion
  | paramsNotObject index got =>
    s!"heat_separators[{index}].params: expected an object, got {got.text}"
  | param index field reason => s!"heat_separators[{index}].params.{field}: {reason}"
  | entry index reason => s!"heat_separators[{index}]: {reason}"
  | build problem => problem.message
  | other text => text

/-- Names the position of the entry that an error belongs to, unless its text does so already. -/
def inSeparator (error : ConfigError) (index : Nat) : ConfigError :=
  if error.message.startsWith "heat_separators[" then error else .entry index error.message

end ConfigError

end KeyHeat

/-!
# Options of a replay

`--config` (or `-c`) and `--trace` (or `-t`) name the two files that a replay reads, and `--out`
(or `-o`) the directory that it writes to, by default the current one. `--threads` sets the number
of workers, and `--strict` ends the replay at the first line that cannot be read. The value of an
option is the next argument, or follows the name after an equals sign.
-/

namespace KeyHeat.Replay

structure Options where
  config : String
  trace : String
  out : String
  threads : Nat
  strict : Bool
  deriving DecidableEq, Repr

/-- Why arguments cannot be understood. -/
inductive UsageError where
  | unexpected (argument : String)
  | noValue (option : String)
  | notANumber (option value : String)
  | repeated (option : String)
  | missing (option : String)
  deriving DecidableEq, Repr

def UsageError.message : UsageError → String
  | unexpected argument => "unexpected argument " ++ argument
  | noValue option => option ++ " needs a value"
  | notANumber option value => option ++ " needs a number, got " ++ value
  | repeated option => option ++ " is given twice"
  | missing option => option ++ " is missing"

namespace Options

/-- The options that have been read. -/
structure Given where
  config : Option String := none
  trace : Option String := none
  out : Option String := none
  threads : Option Nat := none
  strict : Bool := false

/-- The options that take a value. -/
inductive Valued where
  | config
  | trace
  | out
  | threads
  deriving DecidableEq, Repr

namespace Valued

def name : Valued → String
  | config => "--config"
  | trace => "--trace"
  | out => "--out"
  | threads => "--threads"

/-- The option that an argument names, in full or by its letter. -/
def ofArgument? : String → Option Valued
  | "--config" | "-c" => some config
  | "--trace" | "-t" => some trace
  | "--out" | "-o" => some out
  | "--threads" => some threads
  | _ => none

end Valued

/-- The value of a string of decimal digits. -/
def number? (text : String) : Option Nat :=
  if text.toList.all Char.isDigit then text.toNat? else none

/-- Enters a value that has not been given before. -/
def once {α : Type} (option : Valued) (old : Option α) (value : α) :
    Except UsageError (Option α) :=
  match old with
  | none => .ok (some value)
  | some _ => .error (.repeated option.name)

/-- Enters the value of an option. -/
def Given.enter (given : Given) (option : Valued) (value : String) : Except UsageError Given := do
  match option with
  | .config => pure { given with config := ← once option given.config value }
  | .trace => pure { given with trace := ← once option given.trace value }
  | .out => pure { given with out := ← once option given.out value }
  | .threads =>
    match number? value with
    | some count => pure { given with threads := ← once option given.threads count }
    | none => .error (.notANumber option.name value)

/-- An argument cut at its first equals sign. -/
def cutAtEquals (argument : String) : Option (String × String) :=
  let isName (c : Char) : Bool := c != '='
  match argument.toList.dropWhile isName with
  | [] => none
  | _ :: value => some (String.ofList (argument.toList.takeWhile isName), String.ofList value)

/-- Enters the options of an argument list. -/
def Given.read (given : Given) : List String → Except UsageError Given
  | [] => .ok given
  | "--strict" :: rest =>
    if given.strict then .error (.repeated "--strict")
    else Given.read { given with strict := true } rest
  | argument :: rest =>
    match Valued.ofArgument? argument, rest with
    | some option, value :: rest => do Given.read (← given.enter option value) rest
    | some option, [] => .error (.noValue option.name)
    | none, rest =>
      match cutAtEquals argument with
      | none => .error (.unexpected argument)
      | some (name, value) =>
        match Valued.ofArgument? name with
        | some option => do Given.read (← given.enter option value) rest
        | none => .error (.unexpected argument)

/-- A value that has to be given. -/
def Given.present (option : Valued) : Option String → Except UsageError String
  | some value => .ok value
  | none => .error (.missing option.name)

/-- The options that an argument list stands for. -/
def ofArguments (arguments : List String) : Except UsageError Options := do
  let given ← Given.read {} arguments
  pure
    { config := ← Given.present .config given.config
      trace := ← Given.present .trace given.trace
      out := given.out.getD "."
      threads := given.threads.getD 1
      strict := given.strict }

end Options

end KeyHeat.Replay

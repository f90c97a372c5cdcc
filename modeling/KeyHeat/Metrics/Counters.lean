import KeyHeat.Error

/-!
# Call counters

Every instance counts the calls made to it and their failures by kind; there is no upper bound on
any of the counters. A snapshot copies them together with the size and the capacity at that moment.
-/

namespace KeyHeat

structure Counters where
  putCalls : Nat := 0
  getCalls : Nat := 0
  notFound : Nat := 0
  capacityErrors : Nat := 0
  unimplementedErrors : Nat := 0
  invariantErrors : Nat := 0
  hotChecks : Nat := 0
  hotHits : Nat := 0
  hotKeysCalls : Nat := 0
  deriving DecidableEq, Repr

namespace Counters

/-- Counts the failure of an access under its kind. -/
def recordOutcome (counters : Counters) : Access → Counters
  | .ok () => counters
  | .error .notFound => { counters with notFound := counters.notFound + 1 }
  | .error .capacity => { counters with capacityErrors := counters.capacityErrors + 1 }
  | .error (.unimplemented _) =>
    { counters with unimplementedErrors := counters.unimplementedErrors + 1 }
  | .error (.invariant _) => { counters with invariantErrors := counters.invariantErrors + 1 }

def recordPut (counters : Counters) (outcome : Access) : Counters :=
  { counters with putCalls := counters.putCalls + 1 }.recordOutcome outcome

def recordGet (counters : Counters) (outcome : Access) : Counters :=
  { counters with getCalls := counters.getCalls + 1 }.recordOutcome outcome

def recordHotCheck (counters : Counters) (hot : Bool) : Counters :=
  { counters with
    hotChecks := counters.hotChecks + 1
    hotHits := counters.hotHits + if hot then 1 else 0 }

def recordHotKeys (counters : Counters) : Counters :=
  { counters with hotKeysCalls := counters.hotKeysCalls + 1 }

end Counters

/-- The counters of a named instance with its size and capacity. -/
structure Snapshot where
  name : String
  counters : Counters
  residentKeys : Nat
  capacity : Option Nat
  deriving DecidableEq, Repr

end KeyHeat

/-!
# Counts in a machine word

Sizes and times are 64-bit words. A sum or a difference that is not one has no result, and what
asked for it is cut short. Counters that go up by one with a call, such as frequencies, ticks and
stamps, are natural numbers all the same: it would take two to the power 64 calls to lead one of
them out of the range of words.
-/

namespace KeyHeat

/-- An operation that leaves the range of words. -/
inductive Overflow where
  | addition
  | subtraction
  deriving DecidableEq, Repr

def Overflow.message : Overflow → String
  | addition => "attempt to add with overflow"
  | subtraction => "attempt to subtract with overflow"

namespace Number

/-- One above the largest 64-bit count, two to the power 64. -/
def wordLimit : Nat := 18446744073709551616

def sum (m n : Nat) : Except Overflow Nat :=
  if m + n < wordLimit then .ok (m + n) else .error .addition

def difference (m n : Nat) : Except Overflow Nat :=
  if n ≤ m then .ok (m - n) else .error .subtraction

/-- The least power of two that is not below `n`. -/
def powerFrom (n : Nat) : Except Overflow Nat :=
  if n ≤ wordLimit / 2 then .ok n.nextPowerOfTwo else .error .addition

end Number

/-- Why a computation has no result: it refuses what it is given, or it is cut short. -/
inductive Halt (ε : Type) where
  | refused (reason : ε)
  | overflow (operation : Overflow)

namespace Halt

variable {ε δ α : Type}

def map (f : ε → δ) : Halt ε → Halt δ
  | refused reason => .refused (f reason)
  | overflow operation => .overflow operation

/-- A computation that may refuse what it is given, among those that may be cut short too. -/
def ofRefusal (outcome : Except ε α) : Except (Halt ε) α := outcome.mapError refused

/-- Arithmetic on words, among computations that may refuse what they are given too. -/
def ofOverflow (outcome : Except Overflow α) : Except (Halt ε) α := outcome.mapError overflow

end Halt

end KeyHeat

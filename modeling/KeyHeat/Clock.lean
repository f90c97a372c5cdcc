import KeyHeat.Number.Word

/-!
# A clock set by hand

A 64-bit millisecond counter that moves only when it is told to. Advancing it wraps around at the
end of the range; setting it never moves it back.
-/

namespace KeyHeat

structure Clock where
  now : UInt64
  deriving DecidableEq, Repr

namespace Clock

/-- The reading as a number of milliseconds. -/
def millis (clock : Clock) : Nat := clock.now.toNat

/-- Advances the clock and answers with the time that it was asked for. The counter wraps around at
the end of the range, and then there is no answer: the sum is taken once more for it, in plain
words. -/
def advance (clock : Clock) (ms : UInt64) : Except Overflow Nat × Clock :=
  (Number.sum clock.millis ms.toNat, ⟨clock.now + ms⟩)

/-- Jumps forward to `ms`; a time that has passed is ignored. -/
def set (clock : Clock) (ms : UInt64) : Clock := ⟨if clock.now < ms then ms else clock.now⟩

end Clock

end KeyHeat

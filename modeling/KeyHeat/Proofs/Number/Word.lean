import KeyHeat.Number.Word
import Mathlib.Tactic.SplitIfs

/-!
# Arithmetic that may be cut short

When a sum, a difference or a power of two is in the range of words, and what becomes of a result
among computations that may have none.
-/

namespace KeyHeat

namespace Number

variable {m n : Nat}

theorem sum_of_lt (h : m + n < wordLimit) : sum m n = .ok (m + n) := if_pos h

theorem sum_of_le (h : wordLimit ≤ m + n) : sum m n = .error .addition :=
  if_neg (Nat.not_lt.2 h)

theorem difference_of_le (h : n ≤ m) : difference m n = .ok (m - n) := if_pos h

theorem difference_of_lt (h : m < n) : difference m n = .error .subtraction :=
  if_neg (Nat.not_le.2 h)

theorem powerFrom_of_le (h : n ≤ wordLimit / 2) : powerFrom n = .ok n.nextPowerOfTwo := if_pos h

theorem powerFrom_of_lt (h : wordLimit / 2 < n) : powerFrom n = .error .addition :=
  if_neg (Nat.not_le.2 h)

end Number

/-! ## Computations with a result -/

theorem exists_of_bind_eq_ok {ε α β : Type} {outcome : Except ε α} {next : α → Except ε β}
    {result : β} (h : outcome >>= next = .ok result) :
    ∃ value, outcome = .ok value ∧ next value = .ok result := by
  cases outcome with
  | error problem => cases h
  | ok value => exact ⟨value, rfl, h⟩

theorem exists_of_map_eq_ok {ε α β : Type} {outcome : Except ε α} {f : α → β} {result : β}
    (h : outcome.map f = .ok result) : ∃ value, outcome = .ok value ∧ f value = result := by
  cases outcome with
  | error problem => cases h
  | ok value =>
    cases h
    exact ⟨value, rfl, rfl⟩

namespace Halt

variable {ε α : Type} {value : α}

theorem ofRefusal_eq_ok {outcome : Except ε α} :
    ofRefusal outcome = .ok value ↔ outcome = .ok value := by
  cases outcome <;> simp [ofRefusal, Except.mapError]

theorem ofOverflow_eq_ok {outcome : Except Overflow α} :
    ofOverflow (ε := ε) outcome = .ok value ↔ outcome = .ok value := by
  cases outcome <;> simp [ofOverflow, Except.mapError]

end Halt

end KeyHeat

import KeyHeat.Clock
import KeyHeat.Proofs.Number.Word
import Mathlib.Order.Basic

/-!
# The range of a clock set by hand

Requests to a clock ask for a time: one that is later by some milliseconds, or one not before the
time given. While the time asked for is in the range of the clock, the clock shows it. An advance
beyond the end wraps around: the reading falls, and whoever asked for it is left without an answer.
Hence the readings never fall exactly when the last time asked for is in the range.
-/

namespace KeyHeat.Clock

/-! ## Requests -/

/-- A request to a clock. -/
inductive Request where
  | advance (ms : UInt64)
  | set (ms : UInt64)
  deriving DecidableEq, Repr

/-- What a clock makes of a request, and the clock that it leaves for others to read. Only an
advance is answered. -/
def serve (clock : Clock) : Request → Option (Except Overflow Nat) × Clock
  | .advance ms => (some (clock.advance ms).1, (clock.advance ms).2)
  | .set ms => (none, clock.set ms)

/-- The clock after some requests, one after the other. -/
def run (clock : Clock) : List Request → Clock
  | [] => clock
  | request :: requests => run (clock.serve request).2 requests

theorem run_append (clock : Clock) (first second : List Request) :
    clock.run (first ++ second) = (clock.run first).run second := by
  induction first generalizing clock with
  | nil => rfl
  | cons request requests ih => exact ih _

/-- The readings before the first request and after each. -/
def readings (clock : Clock) : List Request → List Nat
  | [] => [clock.millis]
  | request :: requests => clock.millis :: readings (clock.serve request).2 requests

/-! ## Times without an end -/

/-- The time that a request asks for. -/
def Request.due (time : Nat) : Request → Nat
  | advance ms => time + ms.toNat
  | set ms => max time ms.toNat

/-- The time that some requests ask for, one after the other. -/
def due (time : Nat) (requests : List Request) : Nat := requests.foldl Request.due time

/-- The times asked for before the first request and after each. -/
def dueTimes (time : Nat) : List Request → List Nat
  | [] => [time]
  | request :: requests => time :: dueTimes (request.due time) requests

theorem Request.le_due (time : Nat) (request : Request) : time ≤ request.due time := by
  cases request with
  | advance ms => exact Nat.le_add_right _ _
  | set ms => exact Nat.le_max_left _ _

theorem le_due (time : Nat) (requests : List Request) : time ≤ due time requests := by
  induction requests generalizing time with
  | nil => exact Nat.le_refl _
  | cons request requests ih => exact Nat.le_trans (request.le_due time) (ih _)

theorem due_append (time : Nat) (first second : List Request) :
    due time (first ++ second) = due (due time first) second := List.foldl_append

theorem pairwise_dueTimes (time : Nat) (requests : List Request) :
    (dueTimes time requests).Pairwise (· ≤ ·) ∧ ∀ later ∈ dueTimes time requests, time ≤ later := by
  induction requests generalizing time with
  | nil => exact ⟨List.pairwise_singleton _ _, by simp [dueTimes]⟩
  | cons request requests ih =>
    obtain ⟨hpairwise, hlater⟩ := ih (request.due time)
    have hall (later : Nat) (hmem : later ∈ dueTimes (request.due time) requests) : time ≤ later :=
      Nat.le_trans (request.le_due time) (hlater later hmem)
    exact ⟨hpairwise.cons hall, List.forall_mem_cons.2 ⟨Nat.le_refl _, hall⟩⟩

/-! ## Readings -/

theorem millis_lt (clock : Clock) : clock.millis < UInt64.size := clock.now.toNat_lt

/-- Within the range the clock shows the time that is asked for. -/
theorem millis_serve {clock : Clock} {request : Request}
    (h : request.due clock.millis < UInt64.size) :
    (clock.serve request).2.millis = request.due clock.millis := by
  cases request with
  | advance ms => exact (UInt64.toNat_add _ _).trans (Nat.mod_eq_of_lt h)
  | set ms =>
    simp only [serve, set, millis, Request.due, UInt64.lt_iff_toNat_lt]
    split_ifs <;> omega

/-- An advance is answered with the reading that follows, unless it leads out of the range. -/
theorem serve_advance_fst (clock : Clock) (ms : UInt64) :
    (clock.serve (.advance ms)).1 = some
      (if (Request.advance ms).due clock.millis < UInt64.size then
        .ok (clock.serve (.advance ms)).2.millis
      else .error .addition) := by
  split_ifs with hrange
  · rw [millis_serve hrange]
    exact congrArg some (Number.sum_of_lt hrange)
  · exact congrArg some (Number.sum_of_le (Nat.le_of_not_lt hrange))

/-- Only an advance leads out of the range, and the reading falls. -/
theorem millis_serve_lt {clock : Clock} {request : Request}
    (h : UInt64.size ≤ request.due clock.millis) :
    (clock.serve request).2.millis < clock.millis := by
  have hclock := clock.millis_lt
  cases request with
  | advance ms =>
    have hms : ms.toNat < UInt64.size := ms.toNat_lt
    have hwrapped : (clock.advance ms).2.millis = (clock.millis + ms.toNat) % UInt64.size :=
      UInt64.toNat_add _ _
    simp only [Request.due] at h
    rw [serve, hwrapped, Nat.mod_eq_sub_mod h, Nat.mod_eq_of_lt (by omega)]
    omega
  | set ms =>
    have hms : ms.toNat < UInt64.size := ms.toNat_lt
    simp only [Request.due] at h
    omega

/-- Within the range the first request leaves the others to ask for what they would have asked. -/
theorem serve_of_lt {clock : Clock} {request : Request} {requests : List Request}
    (h : due clock.millis (request :: requests) < UInt64.size) :
    (clock.serve request).2.millis = request.due clock.millis ∧
      due (clock.serve request).2.millis requests < UInt64.size := by
  have hfirst : request.due clock.millis < UInt64.size := Nat.lt_of_le_of_lt (le_due _ requests) h
  refine ⟨millis_serve hfirst, ?_⟩
  rw [millis_serve hfirst]
  exact h

theorem readings_eq {clock : Clock} {requests : List Request}
    (h : due clock.millis requests < UInt64.size) :
    clock.readings requests = dueTimes clock.millis requests := by
  induction requests generalizing clock with
  | nil => rfl
  | cons request requests ih =>
    obtain ⟨hserve, hrest⟩ := serve_of_lt h
    rw [readings, dueTimes, ih hrest, hserve]

theorem millis_run {clock : Clock} {requests : List Request}
    (h : due clock.millis requests < UInt64.size) :
    (clock.run requests).millis = due clock.millis requests := by
  induction requests generalizing clock with
  | nil => rfl
  | cons request requests ih =>
    obtain ⟨hserve, hrest⟩ := serve_of_lt h
    rw [run, ih hrest, hserve]
    rfl

theorem head_mem_readings (clock : Clock) (requests : List Request) :
    clock.millis ∈ clock.readings requests := by
  cases requests <;> exact List.mem_cons_self

/-- The readings never fall exactly if the last time asked for is in the range. -/
theorem pairwise_readings_iff (clock : Clock) (requests : List Request) :
    (clock.readings requests).Pairwise (· ≤ ·) ↔ due clock.millis requests < UInt64.size := by
  constructor
  · intro hpairwise
    induction requests generalizing clock with
    | nil => exact clock.millis_lt
    | cons request requests ih =>
      rw [readings, List.pairwise_cons] at hpairwise
      have hle := hpairwise.1 _ (head_mem_readings _ requests)
      have hfirst : request.due clock.millis < UInt64.size :=
        Nat.lt_of_not_le fun hout ↦ Nat.not_le_of_lt (millis_serve_lt hout) hle
      have hrest := ih _ hpairwise.2
      rwa [millis_serve hfirst] at hrest
  · intro h
    rw [readings_eq h]
    exact (pairwise_dueTimes _ _).1

end KeyHeat.Clock

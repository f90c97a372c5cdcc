import KeyHeat.Proofs.Clock
import KeyHeat.Proofs.Policy.SlidingWindow.History

/-!
# A time window by a clock set by hand

Accesses to a time window alternate with requests to the clock that the window reads. While the
times asked for are in the range of the clock, every access is counted by the time it was made at.
Beyond the range the clock falls, and a window can count an access that is too old. Hence the
counts are right exactly when the readings never fall.
-/

namespace KeyHeat.SlidingWindow

/-! ## Accesses between requests -/

/-- A request to the clock, or a call to the window at the time that the clock shows. -/
inductive Event (κ : Type) where
  | tick (request : Clock.Request)
  | access (call : Call κ)
  deriving DecidableEq, Repr

namespace Event

variable {κ : Type}

/-- The requests among some events, in order. -/
def requests : List (Event κ) → List Clock.Request
  | [] => []
  | tick request :: events => request :: requests events
  | access _ :: events => requests events

/-- The call, with the reading of the clock. -/
def stamp (clock : Clock) : Call κ → Call (Nat × κ)
  | .put key => .put (clock.millis, key)
  | .get key => .get (clock.millis, key)

/-- The calls among some events, each with the reading of the clock at that point. -/
def calls (clock : Clock) : List (Event κ) → List (Call (Nat × κ))
  | [] => []
  | tick request :: events => calls (clock.serve request).2 events
  | access call :: events => stamp clock call :: calls clock events

/-- The accesses among some events, each at the time that the requests before it ask for. -/
def accesses (time : Nat) : List (Event κ) → List (Nat × κ)
  | [] => []
  | tick request :: events => accesses (request.due time) events
  | access call :: events => (time, call.key) :: accesses time events

theorem key_stamp (clock : Clock) (call : Call κ) :
    (stamp clock call).key = (clock.millis, call.key) := by
  cases call <;> rfl

/-- Within the range of the clock, the accesses are queued with the times they are made at. -/
theorem map_key_calls {clock : Clock} {events : List (Event κ)}
    (h : Clock.due clock.millis (requests events) < UInt64.size) :
    (calls clock events).map Call.key = accesses clock.millis events := by
  induction events generalizing clock with
  | nil => rfl
  | cons event events ih =>
    cases event with
    | tick request =>
      obtain ⟨hserve, hrest⟩ := Clock.serve_of_lt h
      rw [calls, accesses, ih hrest, hserve]
    | access call => rw [calls, accesses, List.map_cons, key_stamp, ih h]

/-- The accesses are made one after the other, up to the last time asked for. -/
theorem pairwise_accesses (time : Nat) (events : List (Event κ)) :
    (accesses time events).Pairwise (fun first second ↦ first.1 ≤ second.1) ∧
      ∀ access ∈ accesses time events,
        time ≤ access.1 ∧ access.1 ≤ Clock.due time (requests events) := by
  induction events generalizing time with
  | nil => exact ⟨List.Pairwise.nil, fun _ hmem ↦ (List.not_mem_nil hmem).elim⟩
  | cons event events ih =>
    cases event with
    | tick request =>
      obtain ⟨hpairwise, hbounds⟩ := ih (request.due time)
      refine ⟨hpairwise, ?_⟩
      intro access hmem
      obtain ⟨hlower, hupper⟩ := hbounds access hmem
      exact ⟨(request.le_due time).trans hlower, hupper⟩
    | access call =>
      obtain ⟨hpairwise, hbounds⟩ := ih time
      refine ⟨hpairwise.cons fun access hmem ↦ (hbounds access hmem).1, ?_⟩
      rw [accesses, List.forall_mem_cons]
      exact ⟨⟨Nat.le_refl _, Clock.le_due _ _⟩, hbounds⟩

end Event

/-! ## Right counts -/

section Counts

variable (κ : Type) [BEq κ] [Hashable κ]

/-- However accesses to a new window are spread over the first few of the requests, each key then
counts with its accesses in the span that ends at the last time asked for. -/
def CountsRight (start : Clock) (requests : List Clock.Request) : Prop :=
  ∀ (span threshold : Nat) (window : SlidingWindow κ), create span threshold = .ok window →
    ∀ events : List (Event κ), Event.requests events <+: requests → ∀ key : κ,
      (serve.run window (Event.calls start events)).countInWindow
          (start.run (Event.requests events)).millis key =
        tally (within span (Clock.due start.millis (Event.requests events))
          (Event.accesses start.millis events)) key

variable {κ} {start : Clock} {requests : List Clock.Request}

theorem CountsRight.tail {request : Clock.Request} (h : CountsRight κ start (request :: requests))
    (hfirst : request.due start.millis < UInt64.size) :
    CountsRight κ (start.serve request).2 requests := by
  intro span threshold window hwindow events hprefix key
  rw [Clock.millis_serve hfirst]
  exact h span threshold window hwindow (.tick request :: events)
    (List.cons_prefix_cons.2 ⟨rfl, hprefix⟩) key

variable [LawfulBEq κ]

theorem countsRight_of_lt (h : Clock.due start.millis requests < UInt64.size) :
    CountsRight κ start requests := by
  rintro span threshold window hwindow events ⟨rest, rfl⟩ key
  have hrange : Clock.due start.millis (Event.requests events) < UInt64.size := by
    rw [Clock.due_append] at h
    exact (Clock.le_due _ rest).trans_lt h
  have hkeys := Event.map_key_calls hrange
  obtain ⟨hsorted, hbounds⟩ := Event.pairwise_accesses start.millis events
  have htracks := tracks_of_run hwindow (hkeys ▸ hsorted)
    (hkeys ▸ fun access hmem ↦ (hbounds access hmem).2)
  rw [Clock.millis_run hrange, htracks.valid.countInWindow_eq,
    htracks.current_eq _ (Nat.le_refl _), (limits_of_run hwindow _).1, hkeys]

/-- A new window that counts the present only, after an access, counts it at every earlier time. -/
theorem countInWindow_record_of_le {window : SlidingWindow κ} (hwindow : create 0 1 = .ok window)
    {now earlier : Nat} (hle : earlier ≤ now) (key : κ) :
    (window.record now key).countInWindow earlier key = 1 := by
  have hvalid := valid_create hwindow now
  cases hwindow
  have haccesses : ((⟨0, 1, .empty, ∅⟩ : SlidingWindow κ).record now key).accesses.toList =
      [(now, key)] := by
    rw [accesses_record, hvalid.accesses_expire]
    rfl
  have hspan : ((⟨0, 1, .empty, ∅⟩ : SlidingWindow κ).record now key).span = 0 := rfl
  have hrecord := hvalid.record (Nat.le_refl _) key
  rw [hrecord.countInWindow_eq, hrecord.current_eq_within, haccesses, hspan]
  simp [within, tally, Nat.sub_eq_zero_of_le hle]

variable [Nonempty κ]

theorem CountsRight.due_lt (h : CountsRight κ start requests) :
    Clock.due start.millis requests < UInt64.size := by
  induction requests generalizing start with
  | nil => exact start.millis_lt
  | cons request requests ih =>
    by_cases hfirst : request.due start.millis < UInt64.size
    · have hrest := ih (h.tail hfirst)
      rwa [Clock.millis_serve hfirst] at hrest
    · -- The access before the request is in the future after it, and is counted.
      obtain ⟨key⟩ := ‹Nonempty κ›
      have hout : UInt64.size ≤ request.due start.millis := Nat.le_of_not_lt hfirst
      have hlater : start.millis < request.due start.millis := start.millis_lt.trans_le hout
      have hwindow : create (κ := κ) 0 1 = .ok ⟨0, 1, .empty, ∅⟩ := rfl
      have hcount := countInWindow_record_of_le hwindow (Clock.millis_serve_lt hout).le key
      have hright := h 0 1 _ hwindow [.access (.put key), .tick request]
        (List.cons_prefix_cons.2 ⟨rfl, List.nil_prefix⟩) key
      have hone : tally (within 0 (request.due start.millis) [(start.millis, key)]) key = 1 :=
        hright.symm.trans hcount
      have hnone : within 0 (request.due start.millis) [(start.millis, key)] = [] := by
        simp [within, Nat.sub_ne_zero_of_lt hlater]
      rw [hnone] at hone
      cases hone

end Counts

/-! ## Keeping time -/

/-- How a clock keeps time in some requests. An advance is answered with the reading that follows,
unless it leads out of the range of the clock, and then it has no answer. The readings never fall
exactly if the last time asked for is in the range; the clock then shows each time that is asked
for. Exactly then the counts of a window by the clock are right. -/
structure KeepsTime (κ : Type) [BEq κ] [Hashable κ] (start : Clock)
    (requests : List Clock.Request) : Prop where
  answer_advance : ∀ before ms after, requests = before ++ .advance ms :: after →
    ((start.run before).serve (.advance ms)).1 = some
      (if (Clock.Request.advance ms).due (start.run before).millis < UInt64.size then
        .ok (start.run (before ++ [.advance ms])).millis
      else .error .addition)
  pairwise_readings_iff : (start.readings requests).Pairwise (· ≤ ·) ↔
    Clock.due start.millis requests < UInt64.size
  readings_eq : Clock.due start.millis requests < UInt64.size →
    start.readings requests = Clock.dueTimes start.millis requests
  countsRight_iff : CountsRight κ start requests ↔
    Clock.due start.millis requests < UInt64.size

/-- The readings of the clock never fall, and the counts of a window are right, exactly as long as
no advance leads out of the range of the clock. -/
theorem keepsTime {κ : Type} [BEq κ] [LawfulBEq κ] [Hashable κ] [Nonempty κ] (start : Clock)
    (requests : List Clock.Request) : KeepsTime κ start requests where
  answer_advance before ms after _ := by
    rw [Clock.run_append]
    exact (start.run before).serve_advance_fst ms
  pairwise_readings_iff := start.pairwise_readings_iff requests
  readings_eq := Clock.readings_eq
  countsRight_iff := ⟨CountsRight.due_lt, countsRight_of_lt⟩

/-- A clock shows the times asked for, and ignores one that has passed. -/
theorem keepsTime_ignoring_past : (⟨10⟩ : Clock).readings [.advance 5, .set 3, .set 20] =
    [10, 15, 15, 20] :=
  (keepsTime (κ := Nat) ⟨10⟩ [.advance 5, .set 3, .set 20]).readings_eq (by decide)

/-- At the end of the range an advance leads back to the start, and has no answer. -/
theorem not_pairwise_readings :
    ((⟨18446744073709551615⟩ : Clock).serve (.advance 1)).1 = some (.error .addition) ∧
      ¬((⟨18446744073709551615⟩ : Clock).readings [.advance 1]).Pairwise (· ≤ ·) := by
  decide

end KeyHeat.SlidingWindow

import KeyHeat.Replay.Run
import Mathlib.Data.List.Basic

/-!
# Replays in chunks

The accesses of a trace are cut into no more chunks than there are workers. No chunk is empty, and
nothing is lost or moved. If the workers take their turns one after another, the counts and the
instances are in the end what they are if the accesses are applied one by one, whatever the number
of the workers is and whatever time it is at each access.
-/

namespace KeyHeat.Replay

/-! ## Cuts -/

section

variable {α : Type} {size : Nat}

/-- Nothing of a list is lost or moved when it is cut. -/
theorem flatten_cut (hsize : 0 < size) (list : List α) : (cut size list).flatten = list := by
  induction list using cut.induct size with
  | case1 list hcut ih =>
    rw [cut, if_pos hcut, List.flatten_cons, ih, List.take_append_drop]
  | case2 list hcut =>
    rw [cut, if_neg hcut, List.flatten_nil]
    rw [not_and, Nat.not_lt, Nat.le_zero] at hcut
    exact (List.eq_nil_of_length_eq_zero (hcut hsize)).symm

theorem ne_nil_of_mem_cut {part list : List α} (hpart : part ∈ cut size list) : part ≠ [] := by
  induction list using cut.induct size with
  | case1 list hcut ih =>
    rw [cut, if_pos hcut] at hpart
    rcases List.mem_cons.1 hpart with rfl | hrest
    · apply List.ne_nil_of_length_pos
      rw [List.length_take]
      exact Nat.lt_min.2 hcut
    · exact ih hrest
  | case2 list hcut =>
    rw [cut, if_neg hcut] at hpart
    cases hpart

/-- There are no more parts than are needed to hold the list. -/
theorem length_cut_le {list : List α} {count : Nat} (hlength : list.length ≤ count * size) :
    (cut size list).length ≤ count := by
  induction list using cut.induct size generalizing count with
  | case1 list hcut ih =>
    rw [cut, if_pos hcut, List.length_cons]
    cases count with
    | zero => omega
    | succ count =>
      apply Nat.succ_le_succ
      apply ih
      rw [List.length_drop]
      rw [Nat.succ_mul] at hlength
      omega
  | case2 list hcut =>
    rw [cut, if_neg hcut]
    exact Nat.zero_le count

end

theorem chunkSize_pos (count threads : Nat) : 0 < chunkSize count threads := Nat.le_max_right _ 1

theorem le_mul_chunkSize (count : Nat) {threads : Nat} (hthreads : 0 < threads) :
    count ≤ threads * chunkSize count threads := by
  have hdiv := Nat.lt_mul_div_succ (count + (threads - 1)) hthreads
  have hmax : (count + (threads - 1)) / threads ≤ chunkSize count threads := Nat.le_max_left _ 1
  have hmul := Nat.mul_le_mul_left threads hmax
  rw [Nat.mul_add, Nat.mul_one] at hdiv
  omega

theorem flatten_chunks (threads : Nat) (ops : List TraceOp) : (chunks threads ops).flatten = ops :=
  flatten_cut (chunkSize_pos _ _) ops

/-- Workers that take their turns in order feed the accesses in their order. -/
theorem foldl_feedAll_chunks (now threads : Nat) (ensemble : Ensemble Bytes)
    (ops : List TraceOp) :
    (chunks threads ops).foldl (feedAll now) ensemble = feedAll now ensemble ops := by
  calc
    _ = feedAll now ensemble (chunks threads ops).flatten := List.foldl_flatten.symm
    _ = _ := by rw [flatten_chunks]

/-! ## One access after the other -/

/-- Feeds accesses to the instances, each at its own time. -/
def feedTimed (ensemble : Ensemble Bytes) (timed : List (TraceOp × Nat)) : Ensemble Bytes :=
  timed.foldl (fun ensemble (op, now) ↦ (op.feed ensemble now).2) ensemble

/-- Applies accesses to the counts and the instances, each at its own time. -/
def applyAll (state : AccessCounts Bytes × Ensemble Bytes) (timed : List (TraceOp × Nat)) :
    AccessCounts Bytes × Ensemble Bytes :=
  timed.foldl (fun state (op, now) ↦ (op.apply state.1 state.2 now).2) state

/-- The counts and the instances do not see each other. -/
theorem applyAll_eq (stats : AccessCounts Bytes) (ensemble : Ensemble Bytes)
    (timed : List (TraceOp × Nat)) :
    applyAll (stats, ensemble) timed =
      ((timed.map (·.1)).foldl (fun stats op ↦ op.record stats) stats,
        feedTimed ensemble timed) := by
  induction timed generalizing stats ensemble with
  | nil => rfl
  | cons head timed ih => exact ih _ _

theorem feedAll_eq_feedTimed (now : Nat) (ensemble : Ensemble Bytes) (ops : List TraceOp) :
    feedAll now ensemble ops = feedTimed ensemble (ops.map (·, now)) := by
  rw [feedTimed, List.foldl_map]
  rfl

theorem foldl_feedTimed (ensemble : Ensemble Bytes) (parts : List (List (TraceOp × Nat))) :
    parts.foldl feedTimed ensemble = feedTimed ensemble parts.flatten :=
  List.foldl_flatten.symm

/-- Chunks whose accesses each have a time. -/
theorem foldl_feedTimed_chunks {threads : Nat} {ops : List TraceOp}
    {parts : List (List (TraceOp × Nat))} (hparts : parts.map (·.map (·.1)) = chunks threads ops)
    (ensemble : Ensemble Bytes) :
    (count ops, parts.foldl feedTimed ensemble) = applyAll (.empty, ensemble) parts.flatten := by
  have hops : parts.flatten.map (·.1) = ops := by
    rw [List.map_flatten, hparts, flatten_chunks]
  rw [applyAll_eq, hops, foldl_feedTimed]
  rfl

theorem replay_eq_applyAll_map (now threads : Nat) (ensemble : Ensemble Bytes)
    (ops : List TraceOp) :
    replay now threads ensemble ops = applyAll (.empty, ensemble) (ops.map (·, now)) := by
  have hops : (ops.map (·, now)).map (·.1) = ops := by simp [Function.comp_def]
  rw [replay, foldl_feedAll_chunks, feedAll_eq_feedTimed, applyAll_eq, hops]
  rfl

/-- The accesses are cut into at most as many chunks as there are workers, none of them empty, and a
replay by workers that take their turns in order is the application of the accesses one by one. So
it is the same for all numbers of workers. This also holds if time passes between the accesses. -/
theorem replay_eq_applyAll :
    (∀ (threads : Nat) (ops : List TraceOp), 1 ≤ threads →
      (chunks threads ops).length ≤ threads ∧ (∀ part ∈ chunks threads ops, part ≠ []) ∧
        (chunks threads ops).flatten = ops) ∧
    (∀ (now threads : Nat) (ensemble : Ensemble Bytes) (ops : List TraceOp),
      replay now threads ensemble ops = applyAll (.empty, ensemble) (ops.map (·, now)) ∧
        ∀ others, replay now others ensemble ops = replay now threads ensemble ops) ∧
    ∀ (threads : Nat) (ops : List TraceOp) (parts : List (List (TraceOp × Nat))),
      parts.map (·.map (·.1)) = chunks threads ops → ∀ ensemble : Ensemble Bytes,
        (count ops, parts.foldl feedTimed ensemble) =
          applyAll (.empty, ensemble) parts.flatten := by
  refine ⟨?_, ?_, ?_⟩
  · intro threads ops hthreads
    refine ⟨?_, fun part ↦ ne_nil_of_mem_cut, flatten_chunks threads ops⟩
    rw [chunks, Nat.max_eq_left hthreads]
    exact length_cut_le (le_mul_chunkSize _ hthreads)
  · intro now threads ensemble ops
    refine ⟨replay_eq_applyAll_map now threads ensemble ops, fun others ↦ ?_⟩
    rw [replay_eq_applyAll_map, replay_eq_applyAll_map]
  · intro threads ops parts hparts ensemble
    exact foldl_feedTimed_chunks hparts ensemble

def fourOps : List TraceOp := [.put [97], .get [98], .delete [97], .put [98]]

/-- Four workers could have one access each, but for three there are only two chunks. -/
theorem replay_eq_applyAll_four :
    let ensemble : Ensemble Bytes := ⟨[.ofSeparator "window" (.window ⟨10, 1, .empty, ∅⟩)]⟩
    let parts : List (List (TraceOp × Nat)) :=
      [[(.put [97], 0), (.get [98], 5)], [(.delete [97], 7), (.put [98], 12)]]
    (chunks 3 fourOps).length = 2 ∧ (chunks 3 fourOps).length ≤ 3 ∧
      parts.map (·.map (·.1)) = chunks 3 fourOps ∧
      (count fourOps, parts.foldl feedTimed ensemble) =
        applyAll (.empty, ensemble) parts.flatten := by
  intro ensemble parts
  have hchunks : chunks 3 fourOps = [[.put [97], .get [98]], [.delete [97], .put [98]]] := by
    cbv
  obtain ⟨hcut, -, htimed⟩ := replay_eq_applyAll
  exact ⟨congrArg List.length hchunks, (hcut 3 fourOps (by decide)).1, hchunks.symm,
    htimed 3 fourOps parts hchunks.symm ensemble⟩

end KeyHeat.Replay

import KeyHeat.Proofs.Sketch.CountMin

/-!
# Count-Min tables are histograms

Counting the keys of a log makes each row of an empty table the histogram of the log over the
columns of that row, cut off at the value where counters stay. The order of the log does not
matter. The estimate of a key is its least counter, so it is at least the true count, as far as
counters go, and counting more keys does not lower it.
-/

namespace KeyHeat.CountMin

variable {κ : Type} [HashMaterial κ] {sketch : CountMin} {log : List κ}

/-- The sketch after counting the keys of a log, one after the other. -/
def run (sketch : CountMin) (log : List κ) : CountMin := log.foldl increment sketch

theorem run_append (sketch : CountMin) (log more : List κ) :
    sketch.run (log ++ more) = (sketch.run log).run more := List.foldl_append

/-- Counting changes nothing but the values of counters. -/
theorem frame_run (sketch : CountMin) (log : List κ) :
    (sketch.run log).width = sketch.width ∧ (sketch.run log).seeds = sketch.seeds ∧
      (sketch.run log).counters.size = sketch.counters.size := by
  induction log generalizing sketch with
  | nil => exact ⟨rfl, rfl, rfl⟩
  | cons key log ih =>
    obtain ⟨hwidth, hseeds, hsize⟩ := ih (sketch.increment key)
    rw [counters_increment, Table.size_updateAll] at hsize
    exact ⟨hwidth, hseeds, hsize⟩

/-! ## The order of the log -/

/-- Two keys can be counted in either order, whether they share counters or not. -/
theorem increment_comm (sketch : CountMin) (first second : κ) :
    (sketch.increment first).increment second = (sketch.increment second).increment first := by
  have hcounters : ((sketch.increment first).increment second).counters =
      ((sketch.increment second).increment first).counters :=
    Table.updateAll_comm _ (sketch.slots first) (sketch.slots second) sketch.counters
  exact congrArg (CountMin.mk sketch.width sketch.seeds) hcounters

theorem run_eq_of_perm {others : List κ} (hperm : others.Perm log) (sketch : CountMin) :
    sketch.run others = sketch.run log :=
  hperm.foldl_eq' (fun first _ second _ sketch ↦ increment_comm sketch first second) sketch

/-! ## Histograms -/

theorem Tallies.run {old : List κ} (h : Tallies old sketch) (log : List κ) :
    Tallies (log.reverse ++ old) (sketch.run log) := by
  induction log generalizing sketch old with
  | nil => exact h
  | cons key log ih =>
    rw [List.reverse_cons, List.append_assoc]
    exact ih (h.increment key)

theorem Tallies.estimate_le_run {old : List κ} (h : Tallies old sketch) (more : List κ) (key : κ) :
    sketch.estimate key ≤ (sketch.run more).estimate key := by
  induction more generalizing sketch old with
  | nil => exact Nat.le_refl _
  | cons other more ih =>
    exact (h.estimate_le_increment other key).trans (ih (h.increment other))

theorem tally_reverse (width : Nat) (seed : UInt64) (log : List κ) (col : Nat) :
    tally width seed log.reverse col = tally width seed log col :=
  List.countP_reverse

theorem counterMax_eq : counterMax = UInt64.size - 1 := rfl

/-- What a sketch of the given dimensions that was empty holds after counting the keys of a log, and
what it estimates for each key. -/
structure Histograms [BEq κ] (width depth : Nat) (sketch : CountMin) (log : List κ) : Prop where
  size_eq : (sketch.run log).counters.size = width * depth
  slots_lt : ∀ key : κ, ∀ slot ∈ (sketch.run log).slots key,
    slot < (sketch.run log).counters.size
  counter_eq : ∀ row < depth, ∀ col < width,
    (sketch.run log).counters[row * width + col]? =
      some (min (UInt64.size - 1) (tally width (rowSeed row) log col))
  isLeast_estimate : ∀ key : κ, IsLeast {count | ∃ row < depth,
      min (UInt64.size - 1) (tally width (rowSeed row) log (column width (rowSeed row) key)) =
        count}
    ((sketch.run log).estimate key)
  count_le_estimate : ∀ key : κ,
    min (UInt64.size - 1) (log.count key) ≤ (sketch.run log).estimate key
  estimate_le : ∀ (more : List κ) (key : κ),
    (sketch.run log).estimate key ≤ (sketch.run (log ++ more)).estimate key
  run_eq : ∀ others : List κ, others.Perm log → sketch.run others = sketch.run log

/-- A new sketch of any accepted dimensions counts every log as a histogram. -/
theorem histograms_of_run [BEq κ] [LawfulBEq κ] {width depth : Nat}
    (h : ofDimensions width depth = .ok sketch) (log : List κ) :
    Histograms width depth sketch log := by
  have hnew : Tallies ([] : List κ) sketch := tallies_ofDimensions h
  have htallies : Tallies log.reverse (sketch.run log) :=
    List.append_nil log.reverse ▸ hnew.run log
  obtain ⟨hwidth, hseeds, hsize⟩ := frame_run sketch log
  obtain ⟨hpos, -, -, rfl⟩ := ofDimensions_eq_ok_iff.1 h
  rw [Array.size_replicate] at hsize
  refine {
    size_eq := hsize
    slots_lt := ?_
    counter_eq := ?_
    isLeast_estimate := ?_
    count_le_estimate := ?_
    estimate_le := ?_
    run_eq := fun others hperm ↦ run_eq_of_perm hperm _ }
  · intro key slot hslot
    have hlt := lt_of_mem_slots htallies.width_pos hslot
    rwa [CountMin.depth, hseeds, List.length_map, List.length_range, hwidth, ← hsize] at hlt
  · intro row hrow col hcol
    have hseed : ((List.range depth).map rowSeed)[row]? = some (rowSeed row) := by
      rw [List.getElem?_map, List.getElem?_range hrow, Option.map_some]
    have hcounter := htallies.counter_eq row (rowSeed row) (hseeds ▸ hseed) col (hwidth ▸ hcol)
    rwa [hwidth, tally_reverse, Nat.min_comm] at hcounter
  · intro key
    have hleast := htallies.isLeast_estimate key
    rw [hseeds, hwidth] at hleast
    simpa only [List.mem_map, List.mem_range, exists_exists_and_eq_and, counter, tally_reverse,
      counterMax_eq, Nat.min_comm _ (UInt64.size - 1)] using hleast
  · intro key
    have hcount := htallies.count_le_estimate key
    rwa [List.count_reverse, Nat.min_comm] at hcount
  · intro more key
    rw [run_append]
    exact htallies.estimate_le_run more key

/-- Keys 0 and 1 share their counters in both rows of a table of four columns, so key 0 is counted
twice and estimated at three. -/
theorem histograms_of_run_shared : ∃ sketch, ofDimensions 4 2 = .ok sketch ∧
    Histograms (κ := UInt64) 4 2 sketch [0, 1, 2, 0] ∧
    (sketch.run [(0 : UInt64), 1, 2, 0]).estimate (0 : UInt64) = 3 := by
  refine ⟨_, rfl, histograms_of_run rfl _, ?_⟩
  decide

end KeyHeat.CountMin

import KeyHeat.Proofs.Sketch.Table
import KeyHeat.Sketch.CountMin

/-!
# What the counters of a Count-Min sketch count

Every row of the table is a histogram of the counted keys over the columns of that row, cut off at
the value where counters stay. Hence an estimate is the least, over the rows, of the numbers of
keys counted in the column of the key asked for. It is never below the true count.
-/

namespace KeyHeat.CountMin

variable {sketch : CountMin}

/-- Error bounds are met by some accepted dimensions. -/
theorem exists_dimensions {epsilon delta : Float} (h : ofErrorBounds epsilon delta = .ok sketch) :
    ∃ width depth, ofDimensions width depth = .ok sketch := by
  unfold ofErrorBounds at h
  cases hwidth : widthFor epsilon with
  | error problem =>
    rw [hwidth] at h
    cases h
  | ok width =>
    cases hdepth : depthFor delta with
    | error problem =>
      rw [hwidth, hdepth] at h
      cases h
    | ok depth =>
      rw [hwidth, hdepth] at h
      exact ⟨width, depth, h⟩

theorem ofDimensions_eq_ok_iff {width depth : Nat} : ofDimensions width depth = .ok sketch ↔
    0 < width ∧ 0 < depth ∧ width * depth ≤ counterBudget ∧
      sketch = ⟨width, (List.range depth).map rowSeed, Array.replicate (width * depth) 0⟩ := by
  unfold ofDimensions
  split_ifs with hzero hbudget
  · exact iff_of_false nofun (by omega)
  · exact iff_of_false nofun (by omega)
  · rw [Except.ok.injEq, eq_comm]
    constructor
    · exact fun heq ↦ ⟨by omega, by omega, by omega, heq⟩
    · exact fun hspec ↦ hspec.2.2.2

/-! ## The counters of a key -/

variable {κ : Type} [HashMaterial κ] {key : κ} {log : List κ}

theorem column_lt {width : Nat} (hpos : 0 < width) (seed : UInt64) (key : κ) :
    column width seed key < width := Nat.mod_lt _ hpos

/-- All counters of a key are counters of the table. -/
theorem lt_of_mem_slots (hpos : 0 < sketch.width) {slot : Nat} (hslot : slot ∈ sketch.slots key) :
    slot < sketch.width * sketch.depth :=
  Table.lt_of_mem_places (fun seed ↦ column_lt hpos seed key) hslot

theorem counters_increment (sketch : CountMin) (key : κ) : (sketch.increment key).counters =
    Table.updateAll id (fun _ count ↦ min (count + 1) counterMax) (sketch.slots key)
      sketch.counters := rfl

/-- Counting a key raises, in each row, the counter of its column and no other. -/
theorem getElem?_increment (hpos : 0 < sketch.width) {row col : Nat} {seed : UInt64}
    (hseed : sketch.seeds[row]? = some seed) (hcol : col < sketch.width) (key : κ) :
    (sketch.increment key).counters[row * sketch.width + col]? =
      if column sketch.width seed key = col then
        sketch.counters[row * sketch.width + col]?.map fun count ↦ min (count + 1) counterMax
      else sketch.counters[row * sketch.width + col]? := by
  have hcolumn (seed : UInt64) : column sketch.width seed key < sketch.width :=
    column_lt hpos seed key
  have hmem : row * sketch.width + col ∈ sketch.slots key ↔ column sketch.width seed key = col :=
    Table.mem_places_iff hcolumn hseed hcol
  have hnodup : ((sketch.slots key).map id).Nodup := by
    rw [List.map_id]
    exact Table.nodup_places hcolumn sketch.seeds
  rw [counters_increment]
  split_ifs with heq
  · exact Table.getElem?_updateAll hnodup (hmem.2 heq) sketch.counters
  · apply Table.getElem?_updateAll_of_not_mem
    rw [List.map_id, hmem]
    exact heq

/-! ## The table -/

/-- The number of keys of a log in a column of the row with the given seed. -/
def tally (width : Nat) (seed : UInt64) (log : List κ) (col : Nat) : Nat :=
  log.countP fun key ↦ column width seed key == col

/-- Each row of the table is the histogram of a log, as far as counters go. -/
structure Tallies (log : List κ) (sketch : CountMin) : Prop where
  width_pos : 0 < sketch.width
  seeds_ne_nil : sketch.seeds ≠ []
  counter_eq : ∀ row seed, sketch.seeds[row]? = some seed → ∀ col < sketch.width,
    sketch.counters[row * sketch.width + col]? =
      some (min (tally sketch.width seed log col) counterMax)

theorem tallies_ofDimensions {width depth : Nat} (h : ofDimensions width depth = .ok sketch) :
    Tallies ([] : List κ) sketch := by
  obtain ⟨hwidth, hdepth, -, rfl⟩ := ofDimensions_eq_ok_iff.1 h
  refine ⟨hwidth, ?_, ?_⟩
  · simp only [ne_eq, List.map_eq_nil_iff, List.range_eq_nil]
    exact Nat.ne_of_gt hdepth
  · intro row seed hseed col hcol
    have hrow : row < depth := by
      obtain ⟨hlt, -⟩ := List.getElem?_eq_some_iff.1 hseed
      simpa using hlt
    rw [Array.getElem?_replicate, if_pos (Table.place_lt hrow hcol)]
    rfl

theorem tally_cons (width : Nat) (seed : UInt64) (key : κ) (log : List κ) (col : Nat) :
    tally width seed (key :: log) col =
      tally width seed log col + if column width seed key = col then 1 else 0 := by
  simp only [tally, List.countP_cons, beq_iff_eq]

theorem Tallies.increment (h : Tallies log sketch) (key : κ) :
    Tallies (key :: log) (sketch.increment key) where
  width_pos := h.width_pos
  seeds_ne_nil := h.seeds_ne_nil
  counter_eq row seed hseed col hcol := by
    change (sketch.increment key).counters[row * sketch.width + col]? =
      some (min (tally sketch.width seed (key :: log) col) counterMax)
    rw [getElem?_increment h.width_pos hseed hcol, h.counter_eq row seed hseed col hcol, tally_cons]
    split_ifs
    · rw [Option.map_some, Option.some.injEq]
      omega
    · rfl

/-! ## Estimates -/

/-- What a table for a log holds for a key in the row with the given seed. -/
def counter (width : Nat) (log : List κ) (key : κ) (seed : UInt64) : Nat :=
  min (tally width seed log (column width seed key)) counterMax

theorem Tallies.counters_eq (h : Tallies log sketch) (key : κ) :
    (sketch.slots key).map (fun slot ↦ sketch.counters.getD slot 0) =
      sketch.seeds.map (counter sketch.width log key) := by
  rw [slots]
  apply Table.map_map_zipIdx_eq
  intro row seed hseed
  have hcounter := h.counter_eq row seed hseed _ (column_lt h.width_pos seed key)
  rw [Array.getD_eq_getD_getElem?, hcounter, Option.getD_some, counter]

/-- The estimate is the least of the counters of the key. -/
theorem Tallies.isLeast_estimate (h : Tallies log sketch) (key : κ) :
    IsLeast {count | ∃ seed ∈ sketch.seeds, counter sketch.width log key seed = count}
      (sketch.estimate key) := by
  rw [estimate, h.counters_eq]
  exact Table.isLeast_min?_map h.seeds_ne_nil _

theorem Tallies.le_estimate_iff (h : Tallies log sketch) {key : κ} {n : Nat} :
    n ≤ sketch.estimate key ↔ ∀ seed ∈ sketch.seeds, n ≤ counter sketch.width log key seed := by
  rw [le_isGLB_iff (h.isLeast_estimate key).isGLB, mem_lowerBounds]
  exact Set.forall_mem_image

theorem count_le_tally [BEq κ] [LawfulBEq κ] (width : Nat) (seed : UInt64) (log : List κ)
    (key : κ) : log.count key ≤ tally width seed log (column width seed key) := by
  apply List.countP_mono_left
  intro other _ heq
  rw [beq_iff_eq.1 heq]
  exact BEq.rfl

/-- Estimates do not undercount. -/
theorem Tallies.count_le_estimate [BEq κ] [LawfulBEq κ] (h : Tallies log sketch) (key : κ) :
    min (log.count key) counterMax ≤ sketch.estimate key := by
  rw [h.le_estimate_iff]
  intro seed _
  have hcount := count_le_tally sketch.width seed log key
  unfold counter
  omega

/-- Counting a key lowers no estimate. -/
theorem Tallies.estimate_le_increment (h : Tallies log sketch) (key other : κ) :
    sketch.estimate other ≤ (sketch.increment key).estimate other := by
  rw [(h.increment key).le_estimate_iff]
  intro seed hseed
  have hcounter := h.le_estimate_iff.1 (Nat.le_refl (sketch.estimate other)) seed hseed
  have htally := tally_cons sketch.width seed key log (column sketch.width seed other)
  change _ ≤ counter sketch.width (key :: log) other seed
  unfold counter at hcounter ⊢
  omega

end KeyHeat.CountMin

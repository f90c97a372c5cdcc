import KeyHeat.Proofs.Sketch.Packed
import Mathlib.Data.List.Induction

/-!
# Packed sketches are tables of decaying counters

Every counter of a packed sketch is the one that would be kept of the keys of its column alone: it
goes up with each of them until it is fifteen, and is halved whenever the sketch is. The frequency
of a key is its least counter, so it is not below a counter that is kept of that key alone.
-/

namespace KeyHeat.PackedSketch

/-- A step of a sketch. -/
inductive Step (κ : Type) where
  | increment (key : κ)
  | halve
  deriving DecidableEq, Repr

variable {κ : Type} {steps : List (Step κ)}

/-! ## Decaying counters -/

/-- What a step makes of a counter of the keys that are told apart by `counted`. -/
def Step.tick (counted : κ → Bool) (count : Nat) : Step κ → Nat
  | increment key => if counted key then min (count + 1) 15 else count
  | halve => count / 2

/-- The counter that is kept of some keys alone. -/
def decayed (counted : κ → Bool) (steps : List (Step κ)) : Nat :=
  steps.foldl (Step.tick counted) 0

theorem decayed_concat (counted : κ → Bool) (steps : List (Step κ)) (step : Step κ) :
    decayed counted (steps ++ [step]) = step.tick counted (decayed counted steps) :=
  List.foldl_append

theorem decayed_le (counted : κ → Bool) (steps : List (Step κ)) : decayed counted steps ≤ 15 := by
  induction steps using List.reverseRecOn with
  | nil => exact Nat.zero_le _
  | append_singleton steps step ih =>
    rw [decayed_concat]
    cases step with
    | increment key =>
      rw [Step.tick]
      split_ifs <;> omega
    | halve => exact (Nat.div_le_self _ _).trans ih

/-- A counter of more keys is not lower. -/
theorem decayed_mono {counted others : κ → Bool}
    (h : ∀ key, counted key = true → others key = true) (steps : List (Step κ)) :
    decayed counted steps ≤ decayed others steps := by
  induction steps using List.reverseRecOn with
  | nil => exact Nat.le_refl _
  | append_singleton steps step ih =>
    have hle := decayed_le others steps
    rw [decayed_concat, decayed_concat]
    cases step with
    | increment key =>
      have hkey := h key
      simp only [Step.tick]
      split_ifs with hcounted hother
      · omega
      · exact absurd (hkey hcounted) hother
      · omega
      · exact ih
    | halve => exact Nat.div_le_div_right ih

/-! ## Runs -/

variable [HashMaterial κ] {sketch : PackedSketch}

def apply (sketch : PackedSketch) : Step κ → PackedSketch
  | .increment key => sketch.increment key
  | .halve => sketch.halve

/-- The sketch after some steps, one after the other. -/
def run (sketch : PackedSketch) (steps : List (Step κ)) : PackedSketch := steps.foldl apply sketch

theorem run_concat (sketch : PackedSketch) (steps : List (Step κ)) (step : Step κ) :
    sketch.run (steps ++ [step]) = (sketch.run steps).apply step :=
  List.foldl_append

/-- Steps change nothing but the values of words. -/
theorem frame_apply (sketch : PackedSketch) (step : Step κ) :
    (sketch.apply step).width = sketch.width ∧ (sketch.apply step).seeds = sketch.seeds ∧
      (sketch.apply step).words.size = sketch.words.size := by
  cases step with
  | increment key =>
    refine ⟨rfl, rfl, ?_⟩
    rw [apply, words_increment, Table.size_updateAll]
  | halve => exact ⟨rfl, rfl, Array.size_map⟩

theorem frame_run (sketch : PackedSketch) (steps : List (Step κ)) :
    (sketch.run steps).width = sketch.width ∧ (sketch.run steps).seeds = sketch.seeds ∧
      (sketch.run steps).words.size = sketch.words.size := by
  induction steps using List.reverseRecOn with
  | nil => exact ⟨rfl, rfl, rfl⟩
  | append_singleton steps step ih =>
    obtain ⟨hwidth, hseeds, hsize⟩ := (sketch.run steps).frame_apply step
    rw [run_concat]
    exact ⟨hwidth.trans ih.1, hseeds.trans ih.2.1, hsize.trans ih.2.2⟩

/-! ## The counters of a run -/

/-- Every counter of the table is that of the keys of its column. -/
structure Decays (steps : List (Step κ)) (sketch : PackedSketch) : Prop where
  width_pos : 0 < sketch.width
  seeds_ne_nil : sketch.seeds ≠ []
  counter?_eq : ∀ row seed, sketch.seeds[row]? = some seed → ∀ col < sketch.width,
    sketch.counter? row col = some (decayed (fun key : κ ↦ sketch.column seed key == col) steps)

theorem Decays.apply (h : Decays steps sketch) (step : Step κ) :
    Decays (steps ++ [step]) (sketch.apply step) := by
  cases step with
  | increment key =>
    refine ⟨h.width_pos, h.seeds_ne_nil, fun row seed hseed col hcol ↦ ?_⟩
    have hcounter := h.counter?_eq row seed hseed col hcol
    change (sketch.increment key).counter? row col =
      some (decayed (fun key : κ ↦ sketch.column seed key == col) (steps ++ [.increment key]))
    rw [counter?_increment h.width_pos hseed hcol, hcounter, decayed_concat, Step.tick]
    simp only [beq_iff_eq]
    split_ifs <;> rfl
  | halve =>
    refine ⟨h.width_pos, h.seeds_ne_nil, fun row seed hseed col hcol ↦ ?_⟩
    have hcounter := h.counter?_eq row seed hseed col hcol
    change sketch.halve.counter? row col =
      some (decayed (fun key : κ ↦ sketch.column seed key == col) (steps ++ [.halve]))
    rw [counter?_halve, hcounter, decayed_concat, Step.tick, Option.map_some]

theorem Decays.run (h : Decays ([] : List (Step κ)) sketch) (steps : List (Step κ)) :
    Decays steps (sketch.run steps) := by
  induction steps using List.reverseRecOn with
  | nil => exact h
  | append_singleton steps step ih =>
    rw [run_concat]
    exact ih.apply step

theorem length_draws (generator : Hash.Xoshiro) (count : Nat) :
    (generator.draws count).length = count := by
  induction count generalizing generator with
  | zero => rfl
  | succ count ih => rw [Hash.Xoshiro.draws, List.length_cons, ih]

theorem frame_empty (width : Nat) (seed : UInt64) : 0 < (empty width seed).width ∧
    (empty width seed).seeds.length = 4 ∧
      (empty width seed).words.size = (empty width seed).wordsPerRow * 4 :=
  ⟨Nat.pos_of_isPowerOfTwo (Nat.isPowerOfTwo_nextPowerOfTwo _), length_draws _ 4,
    Array.size_replicate⟩

theorem decays_empty (width : Nat) (seed : UInt64) :
    Decays ([] : List (Step κ)) (empty width seed) := by
  obtain ⟨hwidth, hseeds, hsize⟩ := frame_empty width seed
  refine ⟨hwidth, List.ne_nil_of_length_pos (by omega), fun row rowSeed hseed col hcol ↦ ?_⟩
  obtain ⟨hrow, -⟩ := List.getElem?_eq_some_iff.1 hseed
  have hplace := Table.place_lt (hseeds ▸ hrow) (div_lt_wordsPerRow hcol)
  have hword : (empty width seed).words[row * (empty width seed).wordsPerRow + col / 16]? =
      some 0 := by
    rw [Array.getElem?_eq_some_iff]
    exact ⟨hsize ▸ hplace, Array.getElem_replicate _⟩
  rw [counter?, hword, Option.map_some, digit_zero]
  rfl

/-! ## Frequencies -/

theorem counterIn_of_counter? {row col count : Nat} (h : sketch.counter? row col = some count) :
    (counterIn (sketch.words.getD (sketch.locate row col).word 0)
      (sketch.locate row col).shift).toNat = count := by
  obtain ⟨word, hword, rfl⟩ := Option.map_eq_some_iff.1 h
  rw [locate_eq, Array.getD_eq_getD_getElem?, hword, Option.getD_some]
  exact toNat_counterIn (Nat.mod_lt _ (by decide)) word

theorem Decays.counters_eq (h : Decays steps sketch) (key : κ) :
    (sketch.positions key).map (fun position ↦
      (counterIn (sketch.words.getD position.word 0) position.shift).toNat) =
    sketch.seeds.map fun seed ↦
      decayed (fun other ↦ sketch.column seed other == sketch.column seed key) steps := by
  rw [positions]
  apply Table.map_map_zipIdx_eq
  intro row seed hseed
  exact counterIn_of_counter? (h.counter?_eq row seed hseed _ (column_lt h.width_pos seed key))

/-- The frequency is the least of the counters of the key. -/
theorem Decays.isLeast_frequency (h : Decays steps sketch) (key : κ) :
    IsLeast {count | ∃ row seed, sketch.seeds[row]? = some seed ∧
      sketch.counter? row (sketch.column seed key) = some count} (sketch.frequency key) := by
  have hleast : IsLeast {count | ∃ seed ∈ sketch.seeds,
      decayed (fun other ↦ sketch.column seed other == sketch.column seed key) steps = count}
      (sketch.frequency key) := by
    rw [frequency, h.counters_eq]
    exact Table.isLeast_min?_map h.seeds_ne_nil _
  have hcounter {row : Nat} {seed : UInt64} (hseed : sketch.seeds[row]? = some seed) :=
    h.counter?_eq row seed hseed _ (column_lt h.width_pos seed key)
  constructor
  · obtain ⟨seed, hseed, heq⟩ := hleast.1
    obtain ⟨row, hrow⟩ := List.mem_iff_getElem?.1 hseed
    exact ⟨row, seed, hrow, by rw [hcounter hrow, heq]⟩
  · rintro count ⟨row, seed, hseed, hcount⟩
    rw [hcounter hseed, Option.some.injEq] at hcount
    exact hleast.2 ⟨seed, List.mem_of_getElem? hseed, hcount⟩

/-- The frequency of a key is not below a counter that is kept of the key alone. -/
theorem Decays.decayed_le_frequency [BEq κ] [LawfulBEq κ] (h : Decays steps sketch) (key : κ) :
    decayed (· == key) steps ≤ sketch.frequency key := by
  obtain ⟨row, seed, hseed, hcount⟩ := (h.isLeast_frequency key).1
  rw [h.counter?_eq row seed hseed _ (column_lt h.width_pos seed key), Option.some.injEq] at hcount
  rw [← hcount]
  apply decayed_mono
  intro other hother
  rw [beq_iff_eq.1 hother]
  exact beq_self_eq_true _

/-! ## The table of a run -/

/-- What a sketch that was empty holds after some steps, what another step makes of it, and what it
tells of each key. -/
structure Unpacks [BEq κ] (start : PackedSketch) (steps : List (Step κ)) : Prop where
  length_seeds : start.seeds.length = 4
  width_eq : (start.run steps).width = start.width
  seeds_eq : (start.run steps).seeds = start.seeds
  positions_lt : ∀ key : κ, ∀ position ∈ (start.run steps).positions key,
    position.word < (start.run steps).words.size ∧ position.shift < 64
  counter?_eq : ∀ row seed, start.seeds[row]? = some seed → ∀ col < start.width,
    (start.run steps).counter? row col =
      some (decayed (fun key : κ ↦ start.column seed key == col) steps)
  counter?_increment : ∀ key : κ, ∀ row seed, start.seeds[row]? = some seed →
    ∀ col < start.width, ((start.run steps).increment key).counter? row col =
      if start.column seed key = col then
        ((start.run steps).counter? row col).map fun count ↦ min 15 (count + 1)
      else (start.run steps).counter? row col
  counter?_halve : ∀ row col,
    (start.run steps).halve.counter? row col = ((start.run steps).counter? row col).map (· / 2)
  isLeast_frequency : ∀ key : κ, IsLeast {count | ∃ row seed, start.seeds[row]? = some seed ∧
    (start.run steps).counter? row (start.column seed key) = some count}
      ((start.run steps).frequency key)
  decayed_le_frequency : ∀ key : κ, decayed (· == key) steps ≤ (start.run steps).frequency key

/-- Steps of a packed sketch are steps of the counters of its table. -/
theorem unpacks_of_run [BEq κ] [LawfulBEq κ] (width : Nat) (seed : UInt64)
    (steps : List (Step κ)) : Unpacks (empty width seed) steps := by
  obtain ⟨hpos, hlength, hsize⟩ := frame_empty width seed
  have hdecays := (decays_empty width seed).run steps
  obtain ⟨hwidth, hseeds, hwords⟩ := frame_run (empty width seed) steps
  have hcolumn : (((empty width seed).run steps).column : UInt64 → κ → Nat) =
      (empty width seed).column := by
    unfold column
    rw [hwidth]
  refine {
    length_seeds := hlength
    width_eq := hwidth
    seeds_eq := hseeds
    positions_lt := ?_
    counter?_eq := ?_
    counter?_increment := ?_
    counter?_halve := fun row col ↦ counter?_halve _ row col
    isLeast_frequency := ?_
    decayed_le_frequency := hdecays.decayed_le_frequency }
  · intro key position hposition
    have hlt := position_lt hdecays.width_pos hposition
    rwa [hseeds, hlength, wordsPerRow, hwidth, ← wordsPerRow, ← hsize, ← hwords] at hlt
  · intro row rowSeed hseed col hcol
    rw [← hcolumn]
    exact hdecays.counter?_eq row rowSeed (hseeds ▸ hseed) col (hwidth ▸ hcol)
  · intro key row rowSeed hseed col hcol
    rw [← hcolumn]
    simp only [Nat.min_comm 15]
    exact PackedSketch.counter?_increment hdecays.width_pos (hseeds ▸ hseed) (hwidth ▸ hcol) key
  · intro key
    rw [← hcolumn, ← hseeds]
    exact hdecays.isLeast_frequency key

/-- Rows of eight counters fill half of a word. Key 5 is counted seventeen times, so its counters
stay at fifteen, and halving leaves seven. -/
theorem unpacks_of_run_eight :
    let steps : List (Step UInt64) := List.replicate 17 (.increment 5) ++ [.halve, .increment 6]
    Unpacks (empty 8 7) steps ∧ decayed (· == 5) steps = 7 ∧
      ((empty 8 7).run steps).frequency (5 : UInt64) = 7 := by
  intro steps
  exact ⟨unpacks_of_run 8 7 steps, by decide, by decide +kernel⟩

end KeyHeat.PackedSketch

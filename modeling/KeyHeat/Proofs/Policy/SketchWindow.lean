import KeyHeat.Policy.SketchWindow
import KeyHeat.Proofs.Container.KeyedList
import KeyHeat.Proofs.Sketch.CountMin

/-!
# The recency window of the sketch policy keeps its bound

A bounded window never holds more keys than it is wide. The hot keys are those of the window whose
estimate has reached the threshold, each listed once.
-/

namespace KeyHeat.SketchWindow

variable {κ : Type} [BEq κ] [Hashable κ]

/-- The keys of the window are in order, and within the bound if there is one. -/
structure Valid (sketch : SketchWindow κ) : Prop where
  window : sketch.window.Valid
  size_le : sketch.bounded = true → sketch.size ≤ sketch.windowSize

variable {sketch : SketchWindow κ}

theorem Valid.size_le_capacity (h : sketch.Valid) {capacity : Nat}
    (hcapacity : sketch.capacity? = some capacity) : sketch.size ≤ capacity := by
  unfold capacity? at hcapacity
  split_ifs at hcapacity with hbounded
  cases hcapacity
  exact h.size_le hbounded

/-! ## Accesses -/

section Accesses

variable [HashMaterial κ]

theorem capacity?_access (key : κ) : (sketch.access key).2.capacity? = sketch.capacity? := by
  unfold access
  split_ifs <;> rfl

theorem access_fst (key : κ) :
    (sketch.access key).1 = if sketch.capacity? = some 0 then .error .capacity else .ok () := by
  unfold access capacity?
  by_cases hbounded : sketch.bounded = true
  · by_cases hzero : sketch.windowSize = 0 <;> simp [hbounded, hzero]
  · simp [hbounded]

theorem Valid.nodup_hotKeys (h : sketch.Valid) : sketch.hotKeys.Nodup :=
  h.window.nodup_toList.filter _

variable [LawfulBEq κ]

omit [LawfulBEq κ] in
theorem record_window (sketch : SketchWindow κ) (key : κ) :
    (sketch.record key).window = if sketch.bounded
      then (sketch.window.push .front key).trim sketch.windowSize
      else sketch.window.push .front key := rfl

theorem Valid.record (h : sketch.Valid) (key : κ) : (sketch.record key).Valid := by
  have hpush := h.window.push .front key
  constructor
  · rw [record_window]
    split_ifs
    · exact hpush.trim _
    · exact hpush
  · intro hbounded
    have hwindow : (sketch.record key).window =
        (sketch.window.push .front key).trim sketch.windowSize := if_pos hbounded
    calc
      _ = ((sketch.window.push .front key).toList.take sketch.windowSize).length := by
        rw [size, hwindow, (hpush.trim _).length_eq, hpush.toList_trim]
      _ = min sketch.windowSize (sketch.window.push .front key).toList.length := List.length_take
      _ ≤ sketch.windowSize := Nat.min_le_left _ _

theorem Valid.access (h : sketch.Valid) (key : κ) : (sketch.access key).2.Valid := by
  unfold SketchWindow.access
  split_ifs
  · exact h
  · exact h.record key

theorem Valid.mem_hotKeys (h : sketch.Valid) {key : κ} :
    key ∈ sketch.hotKeys ↔ sketch.isHot key = true := by
  rw [hotKeys, List.mem_filter, isHot, Bool.and_eq_true, h.window.contains_iff]

end Accesses

/-! ## New sketches -/

/-- A sketch of some accepted dimensions, with nothing counted yet and an empty window. -/
structure Fresh (sketch : SketchWindow κ) : Prop where
  ofDimensions : ∃ width depth, CountMin.ofDimensions width depth = .ok sketch.sketch
  window_eq : sketch.window = .empty
  threshold_pos : 1 ≤ sketch.threshold

theorem Fresh.valid [LawfulBEq κ] (h : sketch.Fresh) : sketch.Valid where
  window := h.window_eq ▸ KeyedList.valid_empty
  size_le _ := by
    rw [size, h.window_eq]
    exact Nat.zero_le _

theorem fresh_create {windowSize threshold : Nat} {epsilon delta : Float} {bounded : Bool}
    (h : create windowSize epsilon delta threshold bounded = .ok sketch) :
    sketch.Fresh ∧ sketch.windowSize = windowSize ∧ sketch.threshold = threshold ∧
      sketch.bounded = bounded := by
  unfold create at h
  split_ifs at h with hzero
  cases hcounts : CountMin.ofErrorBounds epsilon delta with
  | error problem =>
    rw [hcounts] at h
    cases h
  | ok counts =>
    rw [hcounts] at h
    cases h
    exact ⟨⟨CountMin.exists_dimensions hcounts, rfl, Nat.pos_of_ne_zero hzero⟩, rfl, rfl, rfl⟩

theorem valid_create [LawfulBEq κ] {windowSize threshold : Nat} {epsilon delta : Float}
    {bounded : Bool} (h : create windowSize epsilon delta threshold bounded = .ok sketch) :
    sketch.Valid ∧ sketch.capacity? = if bounded then some windowSize else none := by
  obtain ⟨hfresh, rfl, -, rfl⟩ := fresh_create h
  exact ⟨hfresh.valid, rfl⟩

end KeyHeat.SketchWindow

import KeyHeat.Proofs.Policy.Accesses
import KeyHeat.Proofs.Policy.SketchWindow

/-!
# The window policy finds every hot key of its window

After any run the window holds the accessed keys without repetitions, the latest first, cut to its
size if it is bounded, and the hot keys are those of them whose estimates reach the threshold.
Since the sketch has counted every access of the run and never undercounts, a key of the window
that was accessed often enough is hot. The estimate of a key never decreases.
-/

namespace KeyHeat.SketchWindow

variable {κ : Type} [BEq κ] [Hashable κ] [HashMaterial κ] {sketch : SketchWindow κ} {log : List κ}

/-- The outcome of a call and the state that it leaves. -/
def serve : Service (SketchWindow κ) κ := fun sketch call ↦ sketch.access call.key

/-- What a call can do: its access is recorded, or the window has no place for a key. -/
inductive Served (sketch : SketchWindow κ) (key : κ) : Access × SketchWindow κ → Prop
  | recorded (hroom : sketch.capacity? ≠ some 0) : Served sketch key (.ok (), sketch.record key)
  | refused (hfull : sketch.capacity? = some 0) : Served sketch key (.error .capacity, sketch)

theorem served (sketch : SketchWindow κ) (call : Call κ) :
    Served sketch call.key (serve sketch call) := by
  unfold serve access
  split_ifs with hfull
  · apply Served.refused
    rw [capacity?, if_pos hfull.1, hfull.2]
  · apply Served.recorded
    unfold capacity?
    split_ifs with hbounded
    · exact fun hzero ↦ hfull ⟨hbounded, Option.some.inj hzero⟩
    · exact nofun

/-- All calls are recorded if the window has a place for a key. -/
theorem accesses_eq (hroom : sketch.capacity? ≠ some 0) (calls : List (Call κ)) :
    serve.accesses sketch calls = calls.map Call.key := by
  have hserve (state : SketchWindow κ) (call : Call κ) (hstate : state.capacity? ≠ some 0) :
      (serve state call).2.capacity? ≠ some 0 := by
    rw [serve, capacity?_access]
    exact hstate
  apply serve.accesses_eq_map hserve _ hroom
  intro state hstate call _
  have hserved := served state call
  generalize serve state call = outcome at hserved
  cases hserved with
  | recorded => rfl
  | refused hfull => exact absurd hfull hstate

/-- The keys that the window holds after the accesses of a log. -/
def recent (sketch : SketchWindow κ) (log : List κ) : List κ :=
  if sketch.bounded then log.eraseDups.take sketch.windowSize else log.eraseDups

theorem settings_serve (sketch : SketchWindow κ) (call : Call κ) :
    (serve sketch call).2.threshold = sketch.threshold ∧
      (serve sketch call).2.recent = sketch.recent := by
  have hserved := served sketch call
  generalize serve sketch call = outcome at hserved ⊢
  cases hserved <;> exact ⟨rfl, rfl⟩

theorem settings_run (sketch : SketchWindow κ) (calls : List (Call κ)) :
    (serve.run sketch calls).threshold = sketch.threshold ∧
      (serve.run sketch calls).recent = sketch.recent := by
  apply serve.run_invariant
    (P := fun state ↦ state.threshold = sketch.threshold ∧ state.recent = sketch.recent) _
    ⟨rfl, rfl⟩
  rintro state call ⟨hthreshold, hrecent⟩
  have hsettings := state.settings_serve call
  exact ⟨hsettings.1.trans hthreshold, hsettings.2.trans hrecent⟩

variable [LawfulBEq κ]

/-! ## The recorded accesses -/

/-- The table counts the accesses of a log, and the window holds the latest of its keys. -/
structure Records (log : List κ) (sketch : SketchWindow κ) : Prop where
  valid : sketch.Valid
  tallies : CountMin.Tallies log sketch.sketch
  window_eq : sketch.window.toList = sketch.recent log

theorem Fresh.records (h : sketch.Fresh) : Records [] sketch where
  valid := h.valid
  tallies := by
    obtain ⟨width, depth, hcounts⟩ := h.ofDimensions
    exact CountMin.tallies_ofDimensions hcounts
  window_eq := by
    unfold recent
    rw [h.window_eq]
    split_ifs
    · exact List.take_nil.symm
    · rfl

theorem Records.record (h : Records log sketch) (key : κ) :
    Records (key :: log) (sketch.record key) where
  valid := h.valid.record key
  tallies := h.tallies.increment key
  window_eq := by
    have hpush : (sketch.window.push .front key).toList = key :: sketch.window.toList.erase key :=
      h.valid.window.toList_push .front key
    have hwindow := h.window_eq
    change _ = sketch.recent (key :: log)
    unfold recent at hwindow ⊢
    rw [record_window]
    split_ifs at hwindow ⊢
    · rw [(h.valid.window.push .front key).toList_trim, hpush, hwindow]
      exact (take_eraseDups_cons sketch.windowSize key log).symm
    · rw [hpush, hwindow]
      exact (eraseDups_cons_eq_erase key log).symm

theorem Records.serve (h : Records log sketch) (call : Call κ) :
    Records ((SketchWindow.serve.accessed sketch call).reverse ++ log)
      (SketchWindow.serve sketch call).2 := by
  have hserved := served sketch call
  rw [Service.accessed]
  generalize SketchWindow.serve sketch call = outcome at hserved ⊢
  cases hserved with
  | recorded => exact h.record call.key
  | refused => exact h

theorem Fresh.records_run (h : sketch.Fresh) (calls : List (Call κ)) :
    Records (SketchWindow.serve.accesses sketch calls).reverse
      (SketchWindow.serve.run sketch calls) := by
  apply SketchWindow.serve.accesses_invariant _ h.records
  intro log state call hrecords
  exact hrecords.serve call

/-! ## Estimates -/

theorem Records.estimate_le_run (h : Records log sketch) (calls : List (Call κ)) (key : κ) :
    sketch.estimate key ≤ (SketchWindow.serve.run sketch calls).estimate key := by
  induction calls generalizing sketch log with
  | nil => exact Nat.le_refl _
  | cons call calls ih =>
    have hstep : sketch.estimate key ≤ (SketchWindow.serve sketch call).2.estimate key := by
      have hserved := served sketch call
      generalize SketchWindow.serve sketch call = outcome at hserved ⊢
      cases hserved with
      | recorded => exact h.tallies.estimate_le_increment call.key key
      | refused => exact Nat.le_refl _
    exact hstep.trans (ih (h.serve call))

/-- A key of the window with enough accesses is hot. -/
theorem Records.mem_hotKeys (h : Records log sketch) {key : κ} (hrecent : key ∈ sketch.recent log)
    (hword : sketch.threshold ≤ CountMin.counterMax) (hcount : sketch.threshold ≤ log.count key) :
    key ∈ sketch.hotKeys := by
  have hestimate : sketch.threshold ≤ sketch.estimate key :=
    (Nat.le_min.2 ⟨hcount, hword⟩).trans (h.tallies.count_le_estimate key)
  rw [hotKeys, List.mem_filter, h.window_eq]
  exact ⟨hrecent, decide_eq_true hestimate⟩

/-! ## The hot keys of the window -/

/-- What a sketch that was new reports after some calls, all of which were recorded if the window
has a place for a key. The hot keys are the latest keys whose estimates reach the threshold, none
of the latest keys that were accessed as often as that is missing, and estimates do not decrease. -/
structure Detects (start : SketchWindow κ) (calls : List (Call κ)) : Prop where
  accesses_eq : start.capacity? ≠ some 0 → serve.accesses start calls = calls.map Call.key
  hotKeys_eq : (serve.run start calls).hotKeys =
    (start.recent (serve.accesses start calls).reverse).filter fun key ↦
      start.threshold ≤ (serve.run start calls).estimate key
  mem_hotKeys : ∀ key ∈ start.recent (serve.accesses start calls).reverse,
    start.threshold ≤ (serve.accesses start calls).count key →
    key ∈ (serve.run start calls).hotKeys
  estimate_le : ∀ (more : List (Call κ)) (key : κ),
    (serve.run start calls).estimate key ≤ (serve.run start (calls ++ more)).estimate key

/-- A new sketch of any dimensions finds the hot keys of its window in every run. Its threshold is
a count that counters can reach. -/
theorem detects_of_run {start : SketchWindow κ} (hfresh : start.Fresh)
    (hword : start.threshold ≤ CountMin.counterMax) (calls : List (Call κ)) :
    Detects start calls := by
  have hrecords := hfresh.records_run calls
  obtain ⟨hthreshold, hrecent⟩ := settings_run start calls
  refine {
    accesses_eq := fun hroom ↦ accesses_eq hroom calls
    hotKeys_eq := ?_
    mem_hotKeys := ?_
    estimate_le := ?_ }
  · rw [hotKeys, hrecords.window_eq, hthreshold, hrecent]
  · intro key hmem hcount
    apply hrecords.mem_hotKeys
    · rwa [hrecent]
    · rwa [hthreshold]
    · rwa [hthreshold, List.count_reverse]
  · intro more key
    rw [serve.run_append]
    exact hrecords.estimate_le_run more key

/-- In a window of two keys the key that was accessed twice is hot at a threshold of two. -/
theorem detects_of_run_two : ∃ counts, CountMin.ofDimensions 4 2 = .ok counts ∧
    Fresh (κ := UInt64) ⟨counts, .empty, 2, 2, true⟩ ∧ 2 ≤ CountMin.counterMax ∧
    Detects (κ := UInt64) ⟨counts, .empty, 2, 2, true⟩ [.put 1, .put 2, .get 1, .put 3] ∧
    1 ∈ (serve.run (σ := SketchWindow UInt64) ⟨counts, .empty, 2, 2, true⟩
      [.put 1, .put 2, .get 1, .put 3]).hotKeys := by
  have hcounts : CountMin.ofDimensions 4 2 =
      .ok ⟨4, [CountMin.rowSeed 0, CountMin.rowSeed 1], Array.replicate 8 0⟩ := rfl
  have hword : 2 ≤ CountMin.counterMax := by decide
  refine ⟨_, hcounts, ?_⟩
  have hfresh : Fresh (κ := UInt64)
      ⟨⟨4, [CountMin.rowSeed 0, CountMin.rowSeed 1], Array.replicate 8 0⟩, .empty, 2, 2, true⟩ :=
    ⟨⟨4, 2, hcounts⟩, rfl, by decide⟩
  have hdetects := detects_of_run hfresh hword [.put 1, .put 2, .get 1, .put 3]
  have haccesses := hdetects.accesses_eq (by decide)
  refine ⟨hfresh, hword, hdetects, hdetects.mem_hotKeys 1 ?_ ?_⟩
  · rw [haccesses]
    decide
  · rw [haccesses]
    decide

end KeyHeat.SketchWindow

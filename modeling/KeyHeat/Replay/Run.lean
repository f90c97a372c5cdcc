import KeyHeat.Metrics.Exposition
import KeyHeat.Replay.Plan
import KeyHeat.Truth.Overlap

/-!
# Replaying a trace

The accesses are cut into contiguous chunks, one for each worker, which feed them to the shared
instances, while the exact counts are kept over the whole trace. Here the workers take their
turns one after another. Afterwards the hot keys of every instance and of the ground truth are
written, then the metrics, and every instance is scored against the ground truth.
-/

namespace KeyHeat.Replay

/-! ## Chunks -/

/-- The length of a chunk: the accesses divided by the workers, rounded up, at least one. -/
def chunkSize (count threads : Nat) : Nat :=
  max ((count + (threads - 1)) / threads) 1

/-- Cuts a list into parts of the given length, the last of which may be shorter. -/
def cut {α : Type} (size : Nat) (list : List α) : List (List α) :=
  if 0 < size ∧ 0 < list.length then list.take size :: cut size (list.drop size) else []
termination_by list.length
decreasing_by
  simp only [List.length_drop]
  omega

/-- The parts of the trace that the workers take; no workers count as one. -/
def chunks (threads : Nat) (ops : List TraceOp) : List (List TraceOp) :=
  cut (chunkSize ops.length (max threads 1)) ops

/-! ## Feeding -/

/-- Feeds accesses to the instances, all at the time `now`. -/
def feedAll (now : Nat) (ensemble : Ensemble Bytes) (ops : List TraceOp) : Ensemble Bytes :=
  ops.foldl (fun ensemble op ↦ (op.feed ensemble now).2) ensemble

/-- The exact counts of a trace. -/
def count (ops : List TraceOp) : AccessCounts Bytes :=
  ops.foldl (fun stats op ↦ op.record stats) .empty

/-- The exact counts, and the instances after all chunks have been fed to them in order. -/
def replay (now threads : Nat) (ensemble : Ensemble Bytes) (ops : List TraceOp) :
    AccessCounts Bytes × Ensemble Bytes :=
  (count ops, (chunks threads ops).foldl (feedAll now) ensemble)

/-! ## Reports -/

/-- The common first part of the metric names. -/
def metricLead : String := "heatsep"

def metricsFile : String := "metrics.prom"

/-- What a replay leaves behind. -/
structure Reports where
  directory : Directory
  /-- The agreement of every instance with the ground truth, once all files have been written. -/
  overlaps : Except Failure (List (String × Overlap))

/-- The reports on the instances after a replay with the given exact counts: the hot keys of the
ground truth, those of the instances, and the metrics. The first file that cannot be written is
the end of them. -/
def reports (now : Nat) (outPath : String) (config : Config) (stats : AccessCounts Bytes)
    (ensemble : Ensemble Bytes) : Reports :=
  let truth := stats.hotKeys config.hotKeyPortion
  let (hotKeys, ensemble) := ensemble.report now
  match (Directory.empty outPath).write Report.groundTruthFile (Report.lines truth) with
  | .error error => ⟨.empty outPath, .error (.groundTruth error)⟩
  | .ok directory =>
    match directory.writeAll (Report.hotKeyFiles hotKeys) with
    | (directory, .error error) => ⟨directory, .error (.hotKeys error)⟩
    | (directory, .ok ()) =>
      let metrics := Exposition.text metricLead ensemble.snapshots
      match directory.write metricsFile metrics.toUTF8.toList with
      | .error error => ⟨directory, .error (.metrics (directory.pathOf metricsFile) error)⟩
      | .ok directory =>
        ⟨directory, .ok ((ensemble.report now).1.map fun (name, keys) ↦
          (name, Overlap.compute truth keys))⟩

/-- What is known when a replay ends, whether it was carried out or not. -/
structure Outcome where
  ignored : List IgnoredEntry
  skipped : Nat
  /-- The output directory, if the replay came so far as to make it. -/
  directory? : Option Directory
  /-- The agreement of every instance with the ground truth. -/
  result : Except Failure (List (String × Overlap))

/-- Carries out a job whose accesses all happen at the time `now`. -/
def run (now : Nat) (job : Job) : Outcome :=
  match loadConfig job with
  | .error failure => ⟨[], 0, none, .error failure⟩
  | .ok config =>
    match plan job config with
    | .error failure => ⟨config.ignored, 0, none, .error failure⟩
    | .ok plan =>
      let (stats, ensemble) := replay now job.threads plan.ensemble plan.ops
      let reports := reports now job.outPath config stats ensemble
      ⟨config.ignored, plan.skipped, some reports.directory, reports.overlaps⟩

end KeyHeat.Replay

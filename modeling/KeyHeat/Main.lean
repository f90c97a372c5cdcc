import KeyHeat.Replay.Options
import KeyHeat.Replay.Run

/-!
# Command line

Replays a trace file through the separators of a configuration file, and writes their hot keys,
the exact ranking and the metrics to a directory. How well each separator agrees with the exact
ranking is printed. Every access happens at the reading of the clock when it is fed.
-/

namespace KeyHeat.Replay

/-- The bytes of a file, if there is one at the path. -/
def readFile? (path : String) : IO (Option ByteArray) := do
  try
    pure (some (← IO.FS.readBinFile path))
  catch
    | .noFileOrDirectory .. => pure none
    | error => throw error

/-- Feeds accesses one by one, each at the time since `start`. -/
def feedClocked (start : Nat) (ensemble : Ensemble Bytes) (ops : List TraceOp) :
    IO (Ensemble Bytes) :=
  ops.foldlM (fun ensemble op ↦ do
    let now ← IO.monoMsNow
    pure (op.feed ensemble (now - start)).2) ensemble

def writeFiles (directory : Directory) : IO Unit := do
  IO.FS.createDirAll directory.path
  for (name, content) in directory.files do
    IO.FS.writeBinFile (directory.pathOf name) ⟨content.toArray⟩

def overlapText (name : String) (overlap : Overlap) : String :=
  let precision := Number.messageFormat.text overlap.precision
  let coverage := Number.messageFormat.text overlap.coverage
  s!"{name}: reported {overlap.reported}, matched {overlap.matched}, " ++
    s!"precision {precision}, recall {coverage}"

/-- Carries out the replay that the options ask for, and answers with the exit code. -/
def runOptions (options : Options) : IO UInt32 := do
  let job : Job :=
    { configPath := options.config
      tracePath := options.trace
      outPath := options.out
      config := ← readFile? options.config
      trace := (← readFile? options.trace).map (·.toList)
      threads := options.threads
      strict := options.strict }
  match loadConfig job with
  | .error failure =>
    IO.eprintln failure.report
    return failure.exitCode
  | .ok config =>
    for entry in config.ignored do
      IO.println s!"entry {entry.index}: type {entry.type} is not supported, skipped"
    match plan job config with
    | .error failure =>
      IO.eprintln failure.report
      return failure.exitCode
    | .ok plan =>
      if 0 < plan.skipped then
        IO.println s!"{plan.skipped} malformed trace lines skipped"
      let start ← IO.monoMsNow
      let ensemble ← (chunks job.threads plan.ops).foldlM (feedClocked start) plan.ensemble
      let now ← IO.monoMsNow
      let reports := reports (now - start) job.outPath config (count plan.ops) ensemble
      writeFiles reports.directory
      match reports.overlaps with
      | .error failure =>
        IO.eprintln failure.report
        return failure.exitCode
      | .ok overlaps =>
        for (name, overlap) in overlaps do
          IO.println (overlapText name overlap)
        return 0

end KeyHeat.Replay

def main (arguments : List String) : IO UInt32 :=
  match KeyHeat.Replay.Options.ofArguments arguments with
  | .ok options => KeyHeat.Replay.runOptions options
  | .error problem => do
    IO.eprintln ("error: " ++ problem.message)
    return 2

import KeyHeat.Ensemble.Basic
import KeyHeat.Replay.Report

/-!
# Preparing a replay

A replay is given a configuration and a trace as files, either of which may not exist. It is
prepared by building the configured instances and loading the accesses of the trace: all of them,
or as many as the configuration asks for. A line that cannot be read is skipped, or ends the
replay in strict mode.
-/

namespace KeyHeat.Replay

/-- Why a replay is not carried out to its end. -/
inductive Failure where
  | config (path : String) (error : ConfigError)
  | build (error : ConfigError)
  /-- The replay is cut short while the instances are built. -/
  | overflow (operation : Overflow)
  | noTrace (path : String)
  | trace (error : TraceError)
  | groundTruth (error : WriteError)
  | hotKeys (error : WriteError)
  | metrics (path : String) (error : WriteError)

namespace Failure

def message : Failure → String
  | config path _ => "loading " ++ path
  | build error => error.message
  | overflow operation => operation.message
  | noTrace path => "opening " ++ path
  | trace error => error.message
  | groundTruth _ => "writing ground-truth hot keys"
  | hotKeys _ => "writing hot-key reports"
  | metrics path _ => "creating " ++ path

/-- What lies behind a failure, if its message does not say. -/
def cause? : Failure → Option String
  | config _ error => some error.message
  | noTrace _ => some "No such file or directory (os error 2)"
  | groundTruth error | hotKeys error | metrics _ error => some error.message
  | build _ | overflow _ | trace _ => none

/-- The exit code of a program that ends with a failure. -/
def exitCode : Failure → UInt32
  | overflow _ => 101
  | _ => 1

def ofHalt : Halt ConfigError → Failure
  | .refused error => build error
  | .overflow operation => overflow operation

/-- The report on a failure, its cause set apart. -/
def report (failure : Failure) : String :=
  match failure, failure.cause? with
  | overflow operation, _ => operation.message
  | _, some cause => "Error: " ++ failure.message ++ "\n\nCaused by:\n    " ++ cause
  | _, none => "Error: " ++ failure.message

end Failure

structure Job where
  configPath : String
  tracePath : String
  /-- The directory that is made for the reports. -/
  outPath : String
  config : Option ByteArray
  trace : Option Bytes
  /-- The number of workers among which the accesses are divided. -/
  threads : Nat
  strict : Bool

/-- The accesses of a trace, up to `limit` of them if that is positive, and the number of lines
that were skipped. In strict mode the first error met on the way is the answer. -/
def loadTrace (limit : Nat) (strict : Bool) (items : List TraceItem) :
    Except TraceError (List TraceOp × Nat) :=
  load [] 0 0 items
where
  load (done : List TraceOp) (count skipped : Nat) :
      List TraceItem → Except TraceError (List TraceOp × Nat)
    | [] => .ok (done.reverse, skipped)
    | .error error :: rest =>
      if strict then .error error else load done count (skipped + 1) rest
    | .ok op :: rest =>
      if count + 1 = limit then .ok ((op :: done).reverse, skipped)
      else load (op :: done) (count + 1) skipped rest

/-- What a replay starts from. -/
structure Plan where
  config : Config
  ensemble : Ensemble Bytes
  ops : List TraceOp
  skipped : Nat

/-- The configuration of a job. -/
def loadConfig (job : Job) : Except Failure Config :=
  (Config.ofFile job.configPath job.config).mapError (.config job.configPath)

def plan (job : Job) (config : Config) : Except Failure Plan := do
  let ensemble ← (Ensemble.ofConfig config).mapError Failure.ofHalt
  match job.trace with
  | none => .error (.noTrace job.tracePath)
  | some bytes =>
    let (ops, skipped) ←
      (loadTrace config.operationCount job.strict (TraceReader.ofBytes bytes)).mapError
        Failure.trace
    pure ⟨config, ensemble, ops, skipped⟩

end KeyHeat.Replay

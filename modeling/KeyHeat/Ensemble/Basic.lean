import KeyHeat.Config.Load
import KeyHeat.Ensemble.Instance
import KeyHeat.Trace.Line
import KeyHeat.Truth.Counts

/-!
# Ensembles

Several instances that are told of the same accesses. An access goes to every instance in turn,
and one that rejects it does not keep it from the others.
-/

namespace KeyHeat

/-- What became of one access. -/
structure FanOut where
  /-- The number of instances that accepted it. -/
  applied : Nat
  /-- The positions and the errors of those that did not. -/
  failures : List (Nat × AccessError)
  deriving DecidableEq, Repr

namespace FanOut

def empty : FanOut := ⟨0, []⟩

def isClean (report : FanOut) : Bool := report.failures.isEmpty

def hasInvariantFailure (report : FanOut) : Bool := report.failures.any (·.2.isInvariant)

/-- The report on the outcomes at the instances from position `index` on. -/
def ofOutcomes (index : Nat) : List Access → FanOut
  | [] => empty
  | outcome :: rest =>
    let report := ofOutcomes (index + 1) rest
    match outcome with
    | .ok () => { report with applied := report.applied + 1 }
    | .error error => { report with failures := (index, error) :: report.failures }

end FanOut

structure Ensemble (κ : Type) [BEq κ] [Hashable κ] where
  instances : List (Instance κ)

namespace Ensemble

variable {κ : Type} [BEq κ] [Hashable κ]

/-- The instances of the specifications from position `index` on. -/
def buildFrom (index : Nat) : List NamedSpec → Except (Halt ConfigError) (List (Instance κ))
  | [] => .ok []
  | ⟨name, spec⟩ :: rest =>
    match Separator.build spec with
    | .error halt =>
      .error (halt.map fun problem ↦ (ConfigError.build problem).inSeparator index)
    | .ok separator => (buildFrom (index + 1) rest).map (.ofSeparator name separator :: ·)

/-- One instance for every configured separator, in order. -/
def ofConfig (config : Config) : Except (Halt ConfigError) (Ensemble κ) :=
  (buildFrom 0 config.separators).map (⟨·⟩)

def size (ensemble : Ensemble κ) : Nat := ensemble.instances.length

def isEmpty (ensemble : Ensemble κ) : Bool := ensemble.instances.isEmpty

/-- The first instance of the given name. -/
def find? (ensemble : Ensemble κ) (name : String) : Option (Instance κ) :=
  ensemble.instances.find? (·.name == name)

def snapshots (ensemble : Ensemble κ) : List Snapshot := ensemble.instances.map (·.snapshot)

variable [HashMaterial κ]

/-- Lets every instance take part in an access. -/
def fanOut (ensemble : Ensemble κ) (access : Instance κ → Access × Instance κ) :
    FanOut × Ensemble κ :=
  let outcomes := ensemble.instances.map access
  (.ofOutcomes 0 (outcomes.map (·.1)), ⟨outcomes.map (·.2)⟩)

def put (ensemble : Ensemble κ) (now : Nat) (key : κ) : FanOut × Ensemble κ :=
  ensemble.fanOut (·.put now key)

def get (ensemble : Ensemble κ) (now : Nat) (key : κ) : FanOut × Ensemble κ :=
  ensemble.fanOut (·.get now key)

/-- Asks the first instance of the given name, if there is one, a question that may leave a mark
on its counters. -/
def ask {α : Type} (ensemble : Ensemble κ) (name : String)
    (question : Instance κ → α × Instance κ) : Option α × Ensemble κ :=
  let (answer, instances) := search ensemble.instances
  (answer, ⟨instances⟩)
where
  search : List (Instance κ) → Option α × List (Instance κ)
    | [] => (none, [])
    | head :: rest =>
      if head.name = name then
        let (answer, head) := question head
        (some answer, head :: rest)
      else
        let (answer, rest) := search rest
        (answer, head :: rest)

/-- The hot keys of every instance under its name. -/
def report [Ord κ] (ensemble : Ensemble κ) (now : Nat) :
    List (String × List κ) × Ensemble κ :=
  let answers := ensemble.instances.map fun head ↦
    let (keys, after) := head.hotKeys now
    ((head.name, keys), after)
  (answers.map (·.1), ⟨answers.map (·.2)⟩)

end Ensemble

/-! ## Trace accesses -/

namespace TraceOp

/-- Passes an access on to every instance. Deletions are not passed on. -/
def feed (op : TraceOp) (ensemble : Ensemble Bytes) (now : Nat) : FanOut × Ensemble Bytes :=
  match op with
  | .get key => ensemble.get now key
  | .put key => ensemble.put now key
  | .delete _ => (.empty, ensemble)

/-- Enters an access in the exact counts. -/
def record (op : TraceOp) (stats : AccessCounts Bytes) : AccessCounts Bytes :=
  match op with
  | .get key | .put key => stats.record key
  | .delete key => stats.erase key

/-- Enters an access in the exact counts and passes it on to every instance. -/
def apply (op : TraceOp) (stats : AccessCounts Bytes) (ensemble : Ensemble Bytes) (now : Nat) :
    FanOut × AccessCounts Bytes × Ensemble Bytes :=
  let (report, ensemble) := op.feed ensemble now
  (report, op.record stats, ensemble)

end TraceOp

end KeyHeat

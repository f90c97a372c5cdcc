import KeyHeat.Metrics.Counters

/-!
# Metrics as text

One sample a line in the Prometheus text form: a line with the type of the metric, then a line
with its name, the separator as a label, and the value. The label is written as it is.
-/

namespace KeyHeat

inductive MetricType where
  | counter
  | gauge
  deriving DecidableEq, Repr

def MetricType.text : MetricType → String
  | counter => "counter"
  | gauge => "gauge"

structure Sample where
  type : MetricType
  metric : String
  separator : String
  value : Nat
  deriving DecidableEq, Repr

namespace Exposition

/-- The name of a metric under a common first part, which may be empty. -/
def metricName (lead metric : String) : String :=
  if lead.isEmpty then metric else lead ++ "_" ++ metric

def sampleText (lead : String) (sample : Sample) : String :=
  let name := metricName lead sample.metric
  "# TYPE " ++ name ++ " " ++ sample.type.text ++ "\n" ++
    name ++ "\x7bseparator=\"" ++ sample.separator ++ "\"\x7d " ++ toString sample.value ++ "\n"

/-- The samples of a snapshot, in the order in which they are written. -/
def samples (snapshot : Snapshot) : List Sample :=
  let c := snapshot.counters
  let counter (metric : String) (value : Nat) : Sample := ⟨.counter, metric, snapshot.name, value⟩
  let gauge (metric : String) (value : Nat) : Sample := ⟨.gauge, metric, snapshot.name, value⟩
  [counter "put_calls_total" c.putCalls,
    counter "get_calls_total" c.getCalls,
    counter "get_not_found_total" c.notFound,
    counter "capacity_errors_total" c.capacityErrors,
    counter "unimplemented_errors_total" c.unimplementedErrors,
    counter "invariant_errors_total" c.invariantErrors,
    counter "hot_key_checks_total" c.hotChecks,
    counter "hot_key_hits_total" c.hotHits,
    counter "hot_keys_calls_total" c.hotKeysCalls,
    gauge "resident_keys" snapshot.residentKeys] ++
    (snapshot.capacity.map (gauge "capacity")).toList

/-- The text of snapshots, one after another. -/
def text (lead : String) (snapshots : List Snapshot) : String :=
  String.join ((snapshots.flatMap samples).map (sampleText lead))

end Exposition

end KeyHeat

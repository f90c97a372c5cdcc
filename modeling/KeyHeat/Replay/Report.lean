import KeyHeat.Replay.Directory
import KeyHeat.Trace.Reader

/-!
# Report files

Hot keys are written one to a line without a header, each ended by a newline: those of an
instance to a file named after it, those of the ground truth to a file of its own.
-/

namespace KeyHeat.Report

def groundTruthFile : String := "key_stats_hotkeys.csv"

def hotKeyFile (name : String) : String := "hotkeys_" ++ name ++ ".csv"

/-- The content of a file of keys. -/
def lines (keys : List Bytes) : Bytes := keys.flatMap (· ++ [TraceReader.newline])

/-- The files of the reports of instances, in order. -/
def hotKeyFiles (reports : List (String × List Bytes)) : List (String × Bytes) :=
  reports.map fun (name, keys) ↦ (hotKeyFile name, lines keys)

end KeyHeat.Report

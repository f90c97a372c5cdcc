import KeyHeat.Policy.Kind
import KeyHeat.Policy.TinyLfu

/-!
# Specifications

What a separator is to be built from: a policy with values for its parameters.
-/

namespace KeyHeat

inductive Spec where
  | lru (capacity : Nat)
  | lfu (capacity minFrequency : Nat)
  | lruK (k capacity : Nat)
  | window (span threshold : Nat)
  | sketchWindow (windowSize : Nat) (epsilon delta : Float) (threshold : Nat) (bounded : Bool)
  | wTinyLfu (capacity : Nat) (tuning : TinyLfuTuning)
  | lirs (capacity : Nat) (lirRatio : Float) (maxNonResident : Option Nat)
  | s3Fifo (capacity : Nat) (smallRatio ghostRatio : Float)
  | heapTopK (k threshold : Nat)
  /-- A policy that is only a name. -/
  | unimplemented (policy : Policy)

namespace Spec

def policy : Spec → Policy
  | lru .. => .lru
  | lfu .. => .lfu
  | lruK .. => .lruK
  | window .. => .window
  | sketchWindow .. => .sketchWindow
  | wTinyLfu .. => .wTinyLfu
  | lirs .. => .lirs
  | s3Fifo .. => .s3Fifo
  | heapTopK .. => .heapTopK
  | unimplemented policy => policy

/-! ## Parameters left open

What a parameter is taken to be when nothing is said about it. -/

def defaultLirRatio : Float := 0.99

def defaultSmallRatio : Float := 0.1

def defaultGhostRatio : Float := 0.9

/-- The LFU cursor starts at frequency one. -/
def plainLfu (capacity : Nat) : Spec := .lfu capacity 1

def plainTinyLfu (capacity : Nat) : Spec := .wTinyLfu capacity {}

def plainLirs (capacity : Nat) : Spec := .lirs capacity defaultLirRatio none

def plainS3Fifo (capacity : Nat) : Spec := .s3Fifo capacity defaultSmallRatio defaultGhostRatio

end Spec

end KeyHeat

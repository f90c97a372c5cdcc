import KeyHeat.Policy.Lfu
import KeyHeat.Policy.Lirs
import KeyHeat.Policy.Lru
import KeyHeat.Policy.LruK
import KeyHeat.Policy.S3Fifo
import KeyHeat.Policy.SketchWindow
import KeyHeat.Policy.SlidingWindow
import KeyHeat.Policy.TopK
import KeyHeat.Separator.Spec

/-!
# Separators

An online classifier that separates hot keys from cold ones, under any of the policies. It is
told of every access, a write by `put` and a read by `get`, with the time in milliseconds, and
answers which keys are hot. Time matters to the time window alone.
-/

namespace KeyHeat

inductive Separator (κ : Type) [BEq κ] [Hashable κ] where
  | lru (state : Lru κ)
  | lfu (state : Lfu κ)
  | lruK (state : LruK κ)
  | window (state : SlidingWindow κ)
  | sketchWindow (state : SketchWindow κ)
  | wTinyLfu (state : TinyLfu κ)
  | lirs (state : Lirs κ)
  | s3Fifo (state : S3Fifo κ)
  | heapTopK (state : TopK κ)
  | unimplemented (policy : Policy)

namespace Separator

variable {κ : Type} [BEq κ] [Hashable κ]

/-- An empty separator with the given parameters. -/
def build : Spec → Except (Halt BuildProblem) (Separator κ)
  | .lru capacity => .ok (.lru (.empty capacity))
  | .lfu capacity minFrequency => .ok (.lfu (.empty capacity minFrequency))
  | .lruK k capacity => .lruK <$> Halt.ofRefusal (LruK.create k capacity)
  | .window span threshold => .window <$> Halt.ofRefusal (SlidingWindow.create span threshold)
  | .sketchWindow windowSize epsilon delta threshold bounded =>
    .sketchWindow <$>
      Halt.ofRefusal (SketchWindow.create windowSize epsilon delta threshold bounded)
  | .wTinyLfu capacity tuning => .wTinyLfu <$> TinyLfu.create capacity tuning
  | .lirs capacity lirRatio maxNonResident =>
    .lirs <$> Halt.ofRefusal (Lirs.create capacity lirRatio maxNonResident)
  | .s3Fifo capacity smallRatio ghostRatio =>
    .s3Fifo <$> S3Fifo.create capacity smallRatio ghostRatio
  | .heapTopK k threshold => .ok (.heapTopK (.empty k threshold))
  | .unimplemented policy => .ok (.unimplemented policy)

def policy : Separator κ → Policy
  | lru _ => .lru
  | lfu _ => .lfu
  | lruK _ => .lruK
  | window _ => .window
  | sketchWindow _ => .sketchWindow
  | wTinyLfu _ => .wTinyLfu
  | lirs _ => .lirs
  | s3Fifo _ => .s3Fifo
  | heapTopK _ => .heapTopK
  | unimplemented policy => policy

/-- The number of resident keys. -/
def size : Separator κ → Nat
  | lru state => state.size
  | lfu state => state.size
  | lruK state => state.size
  | window state => state.size
  | sketchWindow state => state.size
  | wTinyLfu state => state.size
  | lirs state => state.size
  | s3Fifo state => state.size
  | heapTopK state => state.size
  | unimplemented _ => 0

def isEmpty (separator : Separator κ) : Bool := separator.size == 0

/-- The bound on the number of resident keys, where there is one. -/
def capacity? : Separator κ → Option Nat
  | lru state => some state.capacity
  | lfu state => some state.capacity
  | lruK state => some state.capacity
  | window _ => none
  | sketchWindow state => state.capacity?
  | wTinyLfu state => some state.capacity
  | lirs state => some state.capacity
  | s3Fifo state => some state.capacity
  | heapTopK state => some state.k
  | unimplemented _ => none

/-- The structural self-check of the policy, where it has one. -/
def check : Separator κ → Except String Unit
  | lru state => state.check
  | lfu state => state.check
  | lruK state => state.check
  | window state => state.check
  | sketchWindow _ => .ok ()
  | wTinyLfu state => state.check
  | lirs state => state.check
  | s3Fifo state => state.check
  | heapTopK state => state.check
  | unimplemented _ => .ok ()

variable [HashMaterial κ]

/-! ## Accesses -/

/-- Applies a constructor to the state that an access leaves behind. -/
def lift {σ : Type} (wrap : σ → Separator κ) (outcome : Access × σ) : Access × Separator κ :=
  (outcome.1, wrap outcome.2)

/-- A write of `key` at `now`. -/
def put (separator : Separator κ) (now : Nat) (key : κ) : Access × Separator κ :=
  match separator with
  | lru state => lift lru (state.put key)
  | lfu state => lift lfu (state.put key)
  | lruK state => lift lruK (state.put key)
  | window state => lift window (state.access now key)
  | sketchWindow state => lift sketchWindow (state.access key)
  | wTinyLfu state => lift wTinyLfu (state.access key)
  | lirs state => lift lirs (state.put key)
  | s3Fifo state => lift s3Fifo (state.put key)
  | heapTopK state => lift heapTopK (state.access key)
  | unimplemented policy => (.error (.unimplemented policy), unimplemented policy)

/-- A read of `key` at `now`. -/
def get (separator : Separator κ) (now : Nat) (key : κ) : Access × Separator κ :=
  match separator with
  | lru state => lift lru (state.get key)
  | lfu state => lift lfu (state.get key)
  | lruK state => lift lruK (state.get key)
  | window state => lift window (state.access now key)
  | sketchWindow state => lift sketchWindow (state.access key)
  | wTinyLfu state => lift wTinyLfu (state.access key)
  | lirs state => lift lirs (state.get key)
  | s3Fifo state => lift s3Fifo (state.get key)
  | heapTopK state => lift heapTopK (state.access key)
  | unimplemented policy => (.error (.unimplemented policy), unimplemented policy)

/-! ## Reports -/

/-- Whether the policy classifies `key` as hot at `now`. -/
def isHot (separator : Separator κ) (now : Nat) (key : κ) : Bool :=
  match separator with
  | lru state => state.isHot key
  | lfu state => state.isHot key
  | lruK state => state.isHot key
  | window state => state.isHot now key
  | sketchWindow state => state.isHot key
  | wTinyLfu state => state.isHot key
  | lirs state => state.isHot key
  | s3Fifo state => state.isHot key
  | heapTopK state => state.isHot key
  | unimplemented _ => false

/-- The hot keys at `now`, in the order that the policy defines. -/
def hotKeys [Ord κ] (separator : Separator κ) (now : Nat) : List κ :=
  match separator with
  | lru state => state.hotKeys
  | lfu state => state.hotKeys
  | lruK state => state.hotKeys
  | window state => state.hotKeys now
  | sketchWindow state => state.hotKeys
  | wTinyLfu state => state.hotKeys
  | lirs state => state.hotKeys
  | s3Fifo state => state.hotKeys
  | heapTopK state => state.hotKeys
  | unimplemented _ => []

/-- A dump of the state for people to read. -/
def diagnostics [KeyText κ] (separator : Separator κ) : String :=
  match separator with
  | lru state => state.diagnostics
  | lfu state => state.diagnostics
  | lruK state => state.diagnostics
  | window state => state.diagnostics
  | sketchWindow state => state.diagnostics
  | wTinyLfu state => state.diagnostics
  | lirs state => state.diagnostics
  | s3Fifo state => state.diagnostics
  | heapTopK state => state.diagnostics
  | unimplemented policy => policy.tag ++ " (not implemented)\n"

end Separator

end KeyHeat

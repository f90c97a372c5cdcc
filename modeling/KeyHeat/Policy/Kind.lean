/-!
# The policies

The hot-key policies by name. Every policy has a tag, which a configuration uses to ask for it
and which error texts and dumps use to show it. The top-k policy cannot be asked for in a
configuration, and two tags name policies that are not implemented.
-/

namespace KeyHeat

inductive Policy where
  | lru
  | lfu
  | lruK
  | window
  | sketchWindow
  | wTinyLfu
  | lirs
  | s3Fifo
  | heapTopK
  | arc
  | hotRing
  deriving DecidableEq, Repr

namespace Policy

def all : List Policy :=
  [lru, lfu, lruK, window, sketchWindow, wTinyLfu, lirs, s3Fifo, heapTopK, arc, hotRing]

/-- The name of the policy in configurations and texts. -/
def tag : Policy → String
  | lru => "lru"
  | lfu => "lfu"
  | lruK => "lruk"
  | window => "window"
  | sketchWindow => "sketch_window"
  | wTinyLfu => "w_tinylfu"
  | lirs => "lirs"
  | s3Fifo => "s3_fifo"
  | heapTopK => "heap_topk"
  | arc => "arc"
  | hotRing => "hotring"

/-- The name of the policy in structured dumps. -/
def label : Policy → String
  | lru => "Lru"
  | lfu => "Lfu"
  | lruK => "LruK"
  | window => "Window"
  | sketchWindow => "SketchWindow"
  | wTinyLfu => "WTinyLfu"
  | lirs => "Lirs"
  | s3Fifo => "S3Fifo"
  | heapTopK => "HeapTopK"
  | arc => "Arc"
  | hotRing => "HotRing"

/-- Whether a configuration may ask for the policy. -/
def isConfigurable : Policy → Bool
  | heapTopK => false
  | _ => true

def isImplemented : Policy → Bool
  | arc | hotRing => false
  | _ => true

/-- The configurable policy with this tag, spelled exactly. -/
def ofTag? (tag : String) : Option Policy :=
  all.find? fun policy ↦ policy.isConfigurable && policy.tag == tag

end Policy

end KeyHeat

import KeyHeat.Clock
import KeyHeat.Config.Document
import KeyHeat.Config.Error
import KeyHeat.Config.Load
import KeyHeat.Container.Fifo
import KeyHeat.Container.GhostQueue
import KeyHeat.Container.KeyedList
import KeyHeat.Container.LazyHeap
import KeyHeat.Container.LinkedList
import KeyHeat.Container.MinHeap
import KeyHeat.Container.SlotPool
import KeyHeat.Ensemble.Basic
import KeyHeat.Ensemble.Instance
import KeyHeat.Error
import KeyHeat.Hash.Mix
import KeyHeat.Hash.Xoshiro
import KeyHeat.Json.Fault
import KeyHeat.Json.Reader
import KeyHeat.Json.Record
import KeyHeat.Json.Value
import KeyHeat.Key
import KeyHeat.Main
import KeyHeat.Metrics.Counters
import KeyHeat.Metrics.Exposition
import KeyHeat.Number.Binary64
import KeyHeat.Number.Convert
import KeyHeat.Number.Shortest
import KeyHeat.Number.Text
import KeyHeat.Number.Word
import KeyHeat.Policy.Kind
import KeyHeat.Policy.Lfu
import KeyHeat.Policy.Lirs
import KeyHeat.Policy.Lru
import KeyHeat.Policy.LruK
import KeyHeat.Policy.S3Fifo
import KeyHeat.Policy.SketchWindow
import KeyHeat.Policy.SlidingWindow
import KeyHeat.Policy.TinyLfu
import KeyHeat.Policy.TopK
import KeyHeat.Proofs.Config.Names
import KeyHeat.Proofs.Config.Partition
import KeyHeat.Proofs.Container.GhostQueue.Recency
import KeyHeat.Proofs.Container.KeyedList.Distinct
import KeyHeat.Proofs.Container.LazyHeap.Ties
import KeyHeat.Proofs.Container.LinkedList.Sequence
import KeyHeat.Proofs.Container.SlotPool.Reuse
import KeyHeat.Proofs.Ensemble.Construction
import KeyHeat.Proofs.Ensemble.Isolation
import KeyHeat.Proofs.Metrics.Conservation
import KeyHeat.Proofs.Metrics.Exposition
import KeyHeat.Proofs.Policy.Lfu.History
import KeyHeat.Proofs.Policy.Lirs.History
import KeyHeat.Proofs.Policy.Lru.History
import KeyHeat.Proofs.Policy.LruK.History
import KeyHeat.Proofs.Policy.LruK.OneAccess
import KeyHeat.Proofs.Policy.S3Fifo.Misses
import KeyHeat.Proofs.Policy.S3Fifo.Records
import KeyHeat.Proofs.Policy.S3Fifo.Rotation
import KeyHeat.Proofs.Policy.SketchWindow.History
import KeyHeat.Proofs.Policy.SlidingWindow.History
import KeyHeat.Proofs.Policy.SlidingWindow.Timed
import KeyHeat.Proofs.Policy.TinyLfu.Admission
import KeyHeat.Proofs.Policy.TinyLfu.Order
import KeyHeat.Proofs.Policy.TopK.Memory
import KeyHeat.Proofs.Replay.Loading
import KeyHeat.Proofs.Replay.Lossless
import KeyHeat.Proofs.Separator.Provenance
import KeyHeat.Proofs.Separator.Refusals
import KeyHeat.Proofs.Sketch.Bloom.Members
import KeyHeat.Proofs.Sketch.CountMin.Histogram
import KeyHeat.Proofs.Sketch.Packed.Decay
import KeyHeat.Proofs.Trace.Composition
import KeyHeat.Proofs.Trace.Keys
import KeyHeat.Proofs.Truth.Ranking
import KeyHeat.Proofs.Workload.Words
import KeyHeat.Replay.Directory
import KeyHeat.Replay.Options
import KeyHeat.Replay.Plan
import KeyHeat.Replay.Report
import KeyHeat.Replay.Run
import KeyHeat.Separator.Basic
import KeyHeat.Separator.Spec
import KeyHeat.Sketch.Bloom
import KeyHeat.Sketch.CountMin
import KeyHeat.Sketch.Packed
import KeyHeat.Text.Invisible
import KeyHeat.Text.Quoted
import KeyHeat.Trace.Line
import KeyHeat.Trace.Reader
import KeyHeat.Truth.Counts
import KeyHeat.Truth.Overlap
import KeyHeat.Workload.Accuracy
import KeyHeat.Workload.Generator

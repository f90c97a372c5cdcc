import KeyHeat.Config.Document
import KeyHeat.Config.Error
import KeyHeat.Separator.Spec
import KeyHeat.Sketch.CountMin
import Std.Data.HashSet

/-!
# Loading configurations

A document becomes a configuration when every entry of a known type has acceptable parameters.
Entries of other types are set aside, not refused. The first entry with a problem decides the
error; within an entry the parameters are looked at in a fixed order.
-/

namespace KeyHeat

/-- A specification with the name that its reports carry. -/
structure NamedSpec where
  name : String
  spec : Spec

/-- An entry of an unknown type. -/
structure IgnoredEntry where
  index : Nat
  type : String
  deriving DecidableEq, Repr

structure Config where
  operationCount : Nat
  /-- The share of the distinct keys that counts as hot. -/
  hotKeyPortion : Float
  separators : List NamedSpec
  ignored : List IgnoredEntry

/-! ## Parameters -/

/-- The parameters of the entry at a position. -/
structure Params where
  index : Nat
  members : List (String × JsonValue)

namespace Params

def refuse {α : Type} (params : Params) (field : String) (problem : ParamProblem) :
    Except ConfigError α :=
  .error (.param params.index field problem.message)

/-- The value of a parameter; one that is `null` counts as absent. -/
def find? (params : Params) (field : String) : Option JsonValue :=
  (params.members.lookup field).filter fun value ↦ !value.isNull

/-- A parameter that may be absent, of the kind that `read` recognises. -/
def optional {α : Type} (params : Params) (what : String) (read : JsonValue → Option α)
    (field : String) : Except ConfigError (Option α) :=
  match params.find? field with
  | none => .ok none
  | some value =>
    match read value with
    | some a => .ok (some a)
    | none => params.refuse field (.expected what value)

def required {α : Type} (params : Params) (what : String) (read : JsonValue → Option α)
    (field : String) : Except ConfigError α := do
  match ← params.optional what read field with
  | some a => pure a
  | none => params.refuse field .missing

def integerText : String := "a non-negative integer"

def natural? (params : Params) : String → Except ConfigError (Option Nat) :=
  params.optional integerText JsonValue.natural?

def natural (params : Params) : String → Except ConfigError Nat :=
  params.required integerText JsonValue.natural?

def positive (params : Params) (field : String) : Except ConfigError Nat := do
  match ← params.natural field with
  | 0 => params.refuse field .zero
  | n + 1 => pure (n + 1)

def float? (params : Params) : String → Except ConfigError (Option Float) :=
  params.optional "a number" JsonValue.float?

def float (params : Params) : String → Except ConfigError Float :=
  params.required "a number" JsonValue.float?

def bool (params : Params) : String → Except ConfigError Bool :=
  params.required "a boolean" JsonValue.bool?

/-- The result of a size computation from the value of a parameter. -/
def sized (params : Params) (field : String) :
    Except BuildProblem Nat → Except ConfigError Nat
  | .ok n => .ok n
  | .error problem => params.refuse field (.build problem)

/-! ## Specifications -/

/-- The length of a time window, under either of its names. -/
def span (params : Params) : Except ConfigError Nat := do
  match ← params.natural? "window_size_ms" with
  | some ms => pure ms
  | none =>
    match ← params.natural? "window_size" with
    | some ms => pure ms
    | none => params.refuse "window_size_ms" .missing

/-- Error bounds of a sketch that fits the budget. -/
def errorBounds (params : Params) : Except ConfigError (Float × Float) := do
  let epsilon ← params.float "epsilon"
  let delta ← params.float "delta"
  let width ← params.sized "epsilon" (CountMin.widthFor epsilon)
  let depth ← params.sized "delta" (CountMin.depthFor delta)
  if width * depth > CountMin.counterBudget then
    params.refuse "epsilon" (.build (.sketchTooLarge width depth CountMin.counterBudget))
  else
    pure (epsilon, delta)

/-- The specification of an entry that asks for the given policy. -/
def spec (params : Params) : Policy → Except ConfigError Spec
  | .lru => do pure (.lru (← params.natural "capacity"))
  | .lfu => do
    let capacity ← params.natural "capacity"
    pure (.lfu capacity ((← params.natural? "min_freq").getD 1))
  | .lruK => do
    let k ← params.positive "k"
    pure (.lruK k (← params.natural "capacity"))
  | .window => do
    let span ← params.span
    pure (.window span (← params.positive "threshold"))
  | .sketchWindow => do
    let (epsilon, delta) ← params.errorBounds
    let windowSize ← params.natural "window_size"
    let threshold ← params.positive "threshold"
    pure (.sketchWindow windowSize epsilon delta threshold (← params.bool "enable_lru"))
  | .wTinyLfu => do
    let plain : TinyLfuTuning := {}
    let capacity ← params.natural "capacity"
    let windowRatio ← params.float? "window_ratio"
    let protectedRatio ← params.float? "protected_ratio"
    let sampleSize ← params.natural? "sample_size"
    let seed ← params.natural? "seed"
    pure (.wTinyLfu capacity
      { windowRatio := windowRatio.getD plain.windowRatio
        protectedRatio := protectedRatio.getD plain.protectedRatio
        sampleSize
        seed := (seed.map UInt64.ofNat).getD plain.seed })
  | .lirs => do
    let capacity ← params.natural "capacity"
    let lirRatio ← params.float? "lir_ratio"
    let maxNonResident ← params.natural? "max_nonresident"
    pure (.lirs capacity (lirRatio.getD Spec.defaultLirRatio) maxNonResident)
  | .s3Fifo => do
    let capacity ← params.natural "capacity"
    let smallRatio ← params.float? "small_ratio"
    let ghostRatio ← params.float? "ghost_ratio"
    pure (.s3Fifo capacity (smallRatio.getD Spec.defaultSmallRatio)
      (ghostRatio.getD Spec.defaultGhostRatio))
  | .arc => do
    let _ ← params.natural "capacity"
    pure (.unimplemented .arc)
  | .hotRing => pure (.unimplemented .hotRing)
  | .heapTopK => pure (.unimplemented .heapTopK)

end Params

/-! ## Documents -/

/-- The parameters of an entry: an object, or nothing at all. -/
def ConfigEntry.readParams (entry : ConfigEntry) (index : Nat) : Except ConfigError Params :=
  match entry.params with
  | .object members => .ok ⟨index, members⟩
  | .null => .ok ⟨index, []⟩
  | other => .error (.paramsNotObject index other)

/-- The name of an instance: the given one or else the tag of its policy, with the position of
the entry appended if it is taken. -/
def instanceName (taken : Std.HashSet String) (index : Nat) (base : String) : String :=
  if taken.contains base then s!"{base}_{index}" else base

namespace Config

/-- The specifications and the ignored entries of the entries from position `index` on. -/
def loadEntries (taken : Std.HashSet String) (index : Nat) :
    List ConfigEntry → Except ConfigError (List NamedSpec × List IgnoredEntry)
  | [] => .ok ([], [])
  | entry :: rest =>
    match Policy.ofTag? entry.type with
    | none => do
      let (separators, ignored) ← loadEntries taken (index + 1) rest
      pure (separators, ⟨index, entry.type⟩ :: ignored)
    | some policy => do
      let spec ← (← entry.readParams index).spec policy
      let name := instanceName taken index (entry.name.getD policy.tag)
      let (separators, ignored) ← loadEntries (taken.insert name) (index + 1) rest
      pure (⟨name, spec⟩ :: separators, ignored)

def ofDocument (document : ConfigDocument) : Except ConfigError Config :=
  if !Number.within 0 1 document.hotKeyPortion then
    .error (.portionOutOfRange document.hotKeyPortion)
  else do
    let (separators, ignored) ← loadEntries ∅ 0 document.entries
    pure ⟨document.operationCount, document.hotKeyPortion, separators, ignored⟩

/-- The configuration that a text holds. -/
def ofText (text : String) : Except ConfigError Config :=
  match ConfigDocument.ofText text with
  | .ok document => ofDocument document
  | .error fault => .error (.fault fault)

/-- The configuration in a file with the given bytes, or in a file that does not exist. -/
def ofFile (path : String) : Option ByteArray → Except ConfigError Config
  | none => .error (.unreadable path "No such file or directory (os error 2)")
  | some bytes =>
    match String.fromUTF8? bytes with
    | some text => ofText text
    | none => .error (.unreadable path "stream did not contain valid UTF-8")

end Config

end KeyHeat

import KeyHeat.Number.Text
import KeyHeat.Policy.Kind
import KeyHeat.Text.Quoted

/-!
# What can go wrong

`AccessError` is the answer to an access that a separator rejects. `BuildProblem` is why a
separator cannot be built from its parameters. Each has its wording in one place.
-/

namespace KeyHeat

/-! ## Rejected accesses -/

inductive AccessError where
  /-- A read of a key that was never admitted or has been evicted since. -/
  | notFound
  /-- The separator has room for no key at all. -/
  | capacity
  /-- The policy is a name without an implementation. -/
  | unimplemented (policy : Policy)
  /-- The parts of a separator disagree with each other. -/
  | invariant (detail : String)
  deriving DecidableEq, Repr

/-- The outcome of an access. -/
abbrev Access := Except AccessError Unit

namespace AccessError

def message : AccessError → String
  | notFound => "key not found"
  | capacity => "separator has no capacity"
  | unimplemented policy => policy.tag ++ " separator is not implemented"
  | invariant detail => "invariant violated: " ++ detail

/-- The underlying failure, where there is one. -/
def source? : AccessError → Option String
  | invariant detail => some detail
  | _ => none

/-- The error in a structured dump. -/
def inspect : AccessError → String
  | notFound => "NotFound"
  | capacity => "Capacity"
  | unimplemented policy => "Unimplemented(" ++ policy.label ++ ")"
  | invariant detail => "Invariant(InvariantError(" ++ Text.quoted detail ++ "))"

def isInvariant : AccessError → Bool
  | invariant _ => true
  | _ => false

end AccessError

/-! ## Parameters that cannot be used -/

inductive BuildProblem where
  | historyDepthZero
  | thresholdZero
  | sampleSizeZero
  /-- A ratio that has to lie between zero and one, both included. -/
  | ratioOutOfRange (name : String) (ratio : Float)
  | lirRatioOutOfRange (ratio : Float)
  | ghostRatioOutOfRange (ratio : Float)
  | epsilonOutOfRange (epsilon : Float)
  | epsilonTooSmall (epsilon width : Float) (budget : Nat)
  | deltaOutOfRange (delta : Float)
  | emptySketch (width depth : Nat)
  | sketchTooLarge (width depth budget : Nat)

namespace BuildProblem

def floatText (x : Float) : String := Number.messageFormat.text x

def message : BuildProblem → String
  | historyDepthZero => "k must be at least 1"
  | thresholdZero => "threshold must be at least 1"
  | sampleSizeZero => "sample_size must be at least 1"
  | ratioOutOfRange name ratio => s!"{name} must be in [0.0, 1.0], got {floatText ratio}"
  | lirRatioOutOfRange ratio => s!"lir_ratio must be in (0.0, 1.0), got {floatText ratio}"
  | ghostRatioOutOfRange ratio =>
    s!"ghost_ratio must be finite and non-negative, got {floatText ratio}"
  | epsilonOutOfRange epsilon => s!"epsilon must be in (0, 1], got {floatText epsilon}"
  | epsilonTooSmall epsilon width budget =>
    s!"epsilon {floatText epsilon} needs {floatText width} counters per row, over the " ++
      s!"{budget} counter budget"
  | deltaOutOfRange delta => s!"delta must be in (0, 1), got {floatText delta}"
  | emptySketch width depth => s!"sketch dimensions must be non-zero, got {width}x{depth}"
  | sketchTooLarge width depth budget =>
    s!"sketch of {width}x{depth} exceeds the {budget} counter budget"

end BuildProblem

end KeyHeat

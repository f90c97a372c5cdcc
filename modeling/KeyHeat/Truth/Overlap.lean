import KeyHeat.Number.Convert
import Std.Data.HashSet

/-!
# Overlap of two reports

How far the keys that a separator reports agree with the keys that are truly hot.
-/

namespace KeyHeat

structure Overlap where
  /-- Distinct keys that are hot. -/
  truth : Nat
  /-- Distinct keys that are reported. -/
  reported : Nat
  /-- Distinct keys that are both. -/
  matched : Nat
  deriving DecidableEq, Repr

namespace Overlap

def compute {κ : Type} [BEq κ] [Hashable κ] (truth reported : List κ) : Overlap :=
  let truth := Std.HashSet.ofList truth
  let reported := Std.HashSet.ofList reported
  ⟨truth.size, reported.size, reported.toList.countP truth.contains⟩

def ratio (part whole : Nat) : Float :=
  if whole = 0 then 0 else Number.ofCount part / Number.ofCount whole

/-- The share of the reported keys that are hot; zero if none is reported. -/
def precision (overlap : Overlap) : Float := ratio overlap.matched overlap.reported

/-- The share of the hot keys that are reported, also called recall; zero if none is hot. -/
def coverage (overlap : Overlap) : Float := ratio overlap.matched overlap.truth

end Overlap

end KeyHeat

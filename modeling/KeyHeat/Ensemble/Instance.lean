import KeyHeat.Metrics.Counters
import KeyHeat.Separator.Basic

/-!
# Instances

A separator with a name and with counters of the calls made to it. Accesses and the two queries
for hot keys are counted; the other questions are not.
-/

namespace KeyHeat

structure Instance (κ : Type) [BEq κ] [Hashable κ] where
  name : String
  separator : Separator κ
  counters : Counters

namespace Instance

variable {κ : Type} [BEq κ] [Hashable κ]

def ofSeparator (name : String) (separator : Separator κ) : Instance κ := ⟨name, separator, {}⟩

def snapshot (inst : Instance κ) : Snapshot :=
  ⟨inst.name, inst.counters, inst.separator.size, inst.separator.capacity?⟩

variable [HashMaterial κ]

def put (inst : Instance κ) (now : Nat) (key : κ) : Access × Instance κ :=
  let ⟨name, separator, counters⟩ := inst
  let (outcome, separator) := separator.put now key
  (outcome, ⟨name, separator, counters.recordPut outcome⟩)

def get (inst : Instance κ) (now : Nat) (key : κ) : Access × Instance κ :=
  let ⟨name, separator, counters⟩ := inst
  let (outcome, separator) := separator.get now key
  (outcome, ⟨name, separator, counters.recordGet outcome⟩)

def isHot (inst : Instance κ) (now : Nat) (key : κ) : Bool × Instance κ :=
  let hot := inst.separator.isHot now key
  (hot, { inst with counters := inst.counters.recordHotCheck hot })

def hotKeys [Ord κ] (inst : Instance κ) (now : Nat) : List κ × Instance κ :=
  (inst.separator.hotKeys now,
    { inst with counters := inst.counters.recordHotKeys })

/-- The dump of the separator after its name. -/
def diagnostics [KeyText κ] (inst : Instance κ) : String :=
  "[" ++ inst.name ++ "] " ++ inst.separator.diagnostics

end Instance

end KeyHeat

import KeyHeat.Ensemble.Basic
import KeyHeat.Proofs.Separator.Refusals

/-!
# Instances of an ensemble do not disturb each other

An ensemble in use is as many sessions side by side. Whatever its instances are told of, each of
them is in the state and gives the answers that it would if it were told of the same events alone,
and the report on an access collects these answers. The deletions of a trace are told to none.
-/

namespace KeyHeat

/-! ## Reports -/

namespace FanOut

/-- The report covers these outcomes: each of them is a success that is counted or a failure that
is listed, with its position and its error and in the order of the positions. -/
structure Covers (report : FanOut) (outcomes : List Access) : Prop where
  total : report.applied + report.failures.length = outcomes.length
  mem_failures : ∀ (index : Nat) (error : AccessError),
    (index, error) ∈ report.failures ↔ outcomes[index]? = some (.error error)
  ordered : report.failures.Pairwise (·.1 < ·.1)

theorem applied_ofOutcomes (index : Nat) (outcomes : List Access) :
    (ofOutcomes index outcomes).applied + (ofOutcomes index outcomes).failures.length =
      outcomes.length := by
  induction outcomes generalizing index with
  | nil => rfl
  | cons outcome rest ih =>
    have hrest := ih (index + 1)
    cases outcome with
    | ok _ =>
      simp only [ofOutcomes, List.length_cons]
      omega
    | error error =>
      simp only [ofOutcomes, List.length_cons]
      omega

theorem mem_failures_ofOutcomes {index : Nat} {outcomes : List Access} {position : Nat}
    {error : AccessError} : (position, error) ∈ (ofOutcomes index outcomes).failures ↔
      ∃ offset, position = index + offset ∧ outcomes[offset]? = some (.error error) := by
  induction outcomes generalizing index with
  | nil => simp [ofOutcomes, empty]
  | cons outcome rest ih =>
    rw [← Nat.or_exists_add_one]
    have hrest : (∃ offset, position = index + (offset + 1) ∧
        (outcome :: rest)[offset + 1]? = some (.error error)) ↔
        (position, error) ∈ (ofOutcomes (index + 1) rest).failures := by
      simp only [ih, List.getElem?_cons_succ, Nat.add_assoc, Nat.add_comm 1]
    rw [hrest]
    cases outcome with
    | ok _ => simp [ofOutcomes]
    | error failure => simp [ofOutcomes, eq_comm (a := error)]

theorem ordered_ofOutcomes (index : Nat) (outcomes : List Access) :
    (ofOutcomes index outcomes).failures.Pairwise (·.1 < ·.1) := by
  induction outcomes generalizing index with
  | nil => exact .nil
  | cons outcome rest ih =>
    cases outcome with
    | ok _ => exact ih (index + 1)
    | error error =>
      refine .cons ?_ (ih (index + 1))
      rintro ⟨position, other⟩ hmem
      obtain ⟨offset, rfl, -⟩ := mem_failures_ofOutcomes.1 hmem
      dsimp only
      omega

theorem covers_ofOutcomes (outcomes : List Access) : (ofOutcomes 0 outcomes).Covers outcomes where
  total := applied_ofOutcomes 0 outcomes
  mem_failures index error := by
    rw [mem_failures_ofOutcomes]
    simp
  ordered := ordered_ofOutcomes 0 outcomes

end FanOut

variable {κ : Type} [BEq κ] [Hashable κ] [HashMaterial κ]

/-! ## One instance alone -/

/-- The instance after some events that it alone is told of, from the time `now` on. -/
def Instance.alone (inst : Instance κ) (now : Nat) : List (Event κ) → Instance κ
  | [] => inst
  | .put key :: events => (inst.put now key).2.alone now events
  | .get key :: events => (inst.get now key).2.alone now events
  | .wait time :: events => inst.alone (now + time) events

theorem Instance.name_alone (inst : Instance κ) (now : Nat) (events : List (Event κ)) :
    (inst.alone now events).name = inst.name := by
  induction events generalizing inst now with
  | nil => rfl
  | cons event events ih => cases event <;> exact ih _ _

/-- The separator of the instance is in a session of its own. -/
theorem Instance.separator_alone (inst : Instance κ) (now : Nat) (events : List (Event κ)) :
    (inst.alone now events).separator = (Session.run ⟨inst.separator, now⟩ events).separator := by
  induction events generalizing inst now with
  | nil => rfl
  | cons event events ih => cases event <;> exact ih _ _

/-! ## All instances together -/

/-- An ensemble in use and the present time. -/
structure JointSession (κ : Type) [BEq κ] [Hashable κ] where
  ensemble : Ensemble κ
  now : Nat

namespace JointSession

def step (joint : JointSession κ) : Event κ → JointSession κ
  | .put key => { joint with ensemble := (joint.ensemble.put joint.now key).2 }
  | .get key => { joint with ensemble := (joint.ensemble.get joint.now key).2 }
  | .wait time => { joint with now := joint.now + time }

/-- The joint session after some events, one after the other. -/
def run (joint : JointSession κ) (events : List (Event κ)) : JointSession κ :=
  events.foldl step joint

theorem instances_run (joint : JointSession κ) (events : List (Event κ)) :
    (joint.run events).ensemble.instances =
      joint.ensemble.instances.map (·.alone joint.now events) := by
  induction events generalizing joint with
  | nil => simp [run, Instance.alone]
  | cons event events ih =>
    cases event with
    | put key =>
      refine (ih _).trans ?_
      simp [step, Ensemble.put, Ensemble.fanOut, Instance.alone]
    | get key =>
      refine (ih _).trans ?_
      simp [step, Ensemble.get, Ensemble.fanOut, Instance.alone]
    | wait time => exact ih _

theorem now_run (joint : JointSession κ) (separator : Separator κ) (events : List (Event κ)) :
    (joint.run events).now = (Session.run ⟨separator, joint.now⟩ events).now := by
  induction events generalizing joint separator with
  | nil => rfl
  | cons event events ih => cases event <;> exact ih _ _

/-- Whatever is asked of all separators at the end is what it is for separators told of the events
alone. -/
theorem map_run {α : Type} (start : JointSession κ) (events : List (Event κ))
    (question : Separator κ → Nat → α) :
    (start.run events).ensemble.instances.map
        (fun inst ↦ question inst.separator (start.run events).now) =
      start.ensemble.instances.map fun inst ↦
        let alone := Session.run ⟨inst.separator, start.now⟩ events
        question alone.separator alone.now := by
  rw [instances_run, List.map_map]
  apply List.map_congr_left
  intro inst _
  dsimp only [Function.comp]
  rw [inst.separator_alone, start.now_run inst.separator]

/-- The answers that the instances would give to an event if each had been told of the others
alone. -/
def answersAlone (start : JointSession κ) (events : List (Event κ)) (event : Event κ) :
    List Access :=
  start.ensemble.instances.map fun inst ↦
    (Session.run ⟨inst.separator, start.now⟩ events).answer event

theorem outcomes_put (start : JointSession κ) (events : List (Event κ)) (key : κ) :
    ((start.run events).ensemble.instances.map (·.put (start.run events).now key)).map (·.1) =
      start.answersAlone events (.put key) := by
  rw [List.map_map]
  exact start.map_run events fun separator now ↦ (separator.put now key).1

theorem outcomes_get (start : JointSession κ) (events : List (Event κ)) (key : κ) :
    ((start.run events).ensemble.instances.map (·.get (start.run events).now key)).map (·.1) =
      start.answersAlone events (.get key) := by
  rw [List.map_map]
  exact start.map_run events fun separator now ↦ (separator.get now key).1

/-- From one joint session to another every instance has gone through the events alone, and so the
report on the next access covers the answers of instances that have. -/
structure Isolated (start after : JointSession κ) (events : List (Event κ)) : Prop where
  instances_eq : after.ensemble.instances =
    start.ensemble.instances.map (·.alone start.now events)
  name_eq : ∀ inst : Instance κ, (inst.alone start.now events).name = inst.name
  separator_eq : ∀ inst : Instance κ, (inst.alone start.now events).separator =
    (Session.run ⟨inst.separator, start.now⟩ events).separator
  now_eq : ∀ separator : Separator κ,
    after.now = (Session.run ⟨separator, start.now⟩ events).now
  put_covers : ∀ key, (after.ensemble.put after.now key).1.Covers
    (start.answersAlone events (.put key))
  get_covers : ∀ key, (after.ensemble.get after.now key).1.Covers
    (start.answersAlone events (.get key))

theorem isolated_run (start : JointSession κ) (events : List (Event κ)) :
    Isolated start (start.run events) events where
  instances_eq := start.instances_run events
  name_eq inst := inst.name_alone start.now events
  separator_eq inst := inst.separator_alone start.now events
  now_eq separator := start.now_run separator events
  put_covers key := start.outcomes_put events key ▸ FanOut.covers_ofOutcomes _
  get_covers key := start.outcomes_get events key ▸ FanOut.covers_ofOutcomes _

end JointSession

/-! ## Traces -/

/-- What an operation of a trace tells the instances. -/
def TraceOp.event? : TraceOp → Option (Event Bytes)
  | .get key => some (.get key)
  | .put key => some (.put key)
  | .delete _ => none

/-- An ensemble is told of an event directly or through a trace. -/
inductive TraceEvent where
  | event (told : Event Bytes)
  | op (told : TraceOp)

def TraceEvent.event? : TraceEvent → Option (Event Bytes)
  | event told => some told
  | op told => told.event?

namespace JointSession

def traceStep (joint : JointSession Bytes) : TraceEvent → JointSession Bytes
  | .event event => joint.step event
  | .op op => { joint with ensemble := (op.feed joint.ensemble joint.now).2 }

def traceRun (joint : JointSession Bytes) (events : List TraceEvent) : JointSession Bytes :=
  events.foldl traceStep joint

theorem traceRun_eq (joint : JointSession Bytes) (events : List TraceEvent) :
    joint.traceRun events = joint.run (events.filterMap TraceEvent.event?) := by
  induction events generalizing joint with
  | nil => rfl
  | cons event events ih =>
    cases event with
    | event event => exact ih _
    | op op => cases op <;> exact ih _

/-- A joint session that has been told of a trace as well: as if the instances had been told of the
operations directly, except that deletions change nothing and are reported on by nobody. -/
structure TraceIsolated (start after : JointSession Bytes) (told : List TraceEvent) : Prop
    extends Isolated start after (told.filterMap TraceEvent.event?) where
  feed_put_covers : ∀ key, ((TraceOp.put key).feed after.ensemble after.now).1.Covers
    (start.answersAlone (told.filterMap TraceEvent.event?) (.put key))
  feed_get_covers : ∀ key, ((TraceOp.get key).feed after.ensemble after.now).1.Covers
    (start.answersAlone (told.filterMap TraceEvent.event?) (.get key))
  feed_delete : ∀ key,
    (TraceOp.delete key).feed after.ensemble after.now = (.empty, after.ensemble)

/-- Whatever the instances of an ensemble are told of, directly or through a trace, each is where it
would be if it were told alone, and the reports cover the answers that it would give then. -/
theorem isolated_of_run :
    (∀ {κ : Type} [BEq κ] [Hashable κ] [HashMaterial κ] (start : JointSession κ)
      (events : List (Event κ)), Isolated start (start.run events) events) ∧
    ∀ (start : JointSession Bytes) (told : List TraceEvent),
      TraceIsolated start (start.traceRun told) told := by
  constructor
  · intro κ _ _ _ start events
    exact start.isolated_run events
  · intro start told
    have hisolated := start.isolated_run (told.filterMap TraceEvent.event?)
    rw [← traceRun_eq] at hisolated
    exact {
      toIsolated := hisolated
      feed_put_covers := hisolated.put_covers
      feed_get_covers := hisolated.get_covers
      feed_delete _ := rfl }

end JointSession

/-- The policy in the middle is only a name. -/
example : ((⟨[.ofSeparator "a" (.lru (.empty 4)), .ofSeparator "arc" (.unimplemented .arc),
    .ofSeparator "b" (.lru (.empty 4))]⟩ : Ensemble UInt64).put 0 7).1 =
      ⟨2, [(1, .unimplemented .arc)]⟩ := by
  cbv

end KeyHeat

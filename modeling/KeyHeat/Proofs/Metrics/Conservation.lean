import KeyHeat.Ensemble.Instance
import KeyHeat.Proofs.Separator.Refusals
import Mathlib.Data.List.Induction

/-!
# Counters lose no call

An instance in use is a log of requests and replies. Its counters are the numbers of requests of
each kind and of replies of each kind, so every failure is counted once. Which failures there can be
is up to the policy: only reads miss, and no policy ever reports that it is in disorder, even if the
times of the requests go back.
-/

namespace KeyHeat

variable {κ : Type} [BEq κ] [Hashable κ]

/-! ## Answers at any time -/

namespace Separator

variable {spec : Spec} {separator : Separator κ}

/-- The separator is in a valid state for the specification at all times, or it is a time window,
which may have been told of times that went back. -/
def Serves (spec : Spec) (separator : Separator κ) : Prop :=
  (∀ now, Meets now spec separator) ∨
    ∃ span threshold state, spec = .window span threshold ∧ separator = .window state

/-- Time matters to the time window alone. -/
theorem Meets.serves {now : Nat} (h : Meets now spec separator) : Serves spec separator := by
  cases h with
  | window hvalid => exact .inr ⟨_, _, _, rfl, rfl⟩
  | lru hvalid hcapacity => exact .inl fun _ ↦ .lru hvalid hcapacity
  | lfu hvalid hcapacity => exact .inl fun _ ↦ .lfu hvalid hcapacity
  | lruK hvalid hcapacity => exact .inl fun _ ↦ .lruK hvalid hcapacity
  | sketchWindow hvalid hcapacity => exact .inl fun _ ↦ .sketchWindow hvalid hcapacity
  | wTinyLfu hvalid hcapacity => exact .inl fun _ ↦ .wTinyLfu hvalid hcapacity
  | lirs hvalid hcapacity => exact .inl fun _ ↦ .lirs hvalid hcapacity
  | s3Fifo hvalid hcapacity => exact .inl fun _ ↦ .s3Fifo hvalid hcapacity
  | heapTopK hvalid hk => exact .inl fun _ ↦ .heapTopK hvalid hk
  | unimplemented => exact .inl fun _ ↦ .unimplemented

theorem Serves.capacity?_eq (h : Serves spec separator) :
    separator.capacity? = spec.capacity? := by
  obtain h | ⟨span, threshold, state, rfl, rfl⟩ := h
  · exact (h 0).capacity?_eq
  · rfl

variable [HashMaterial κ] [LawfulBEq κ]

theorem Serves.put (h : Serves spec separator) (now : Nat) (key : κ) :
    Serves spec (separator.put now key).2 := by
  obtain h | ⟨span, threshold, state, rfl, rfl⟩ := h
  · exact ((h now).put key).serves
  · exact .inr ⟨_, _, _, rfl, rfl⟩

theorem Serves.get (h : Serves spec separator) (now : Nat) (key : κ) :
    Serves spec (separator.get now key).2 := by
  obtain h | ⟨span, threshold, state, rfl, rfl⟩ := h
  · exact ((h now).get key).serves
  · exact .inr ⟨_, _, _, rfl, rfl⟩

theorem Serves.put_fst (h : Serves spec separator) (now : Nat) (key : κ) :
    (separator.put now key).1 = spec.putAnswer := by
  obtain h | ⟨span, threshold, state, rfl, rfl⟩ := h
  · exact (h now).put_fst key
  · rfl

theorem Serves.get_fst (h : Serves spec separator) (now : Nat) (key : κ) :
    (separator.get now key).1 = spec.getAnswer (separator.tracks key) := by
  obtain h | ⟨span, threshold, state, rfl, rfl⟩ := h
  · exact (h now).get_fst key
  · rfl

end Separator

/-! ## Logs -/

namespace Instance

/-- What an instance can be asked, at a time. -/
inductive Request (κ : Type) where
  | put (now : Nat) (key : κ)
  | get (now : Nat) (key : κ)
  | isHot (now : Nat) (key : κ)
  | hotKeys (now : Nat)

inductive Reply (κ : Type) where
  | access (outcome : Access)
  | hot (answer : Bool)
  | keys (answer : List κ)
  deriving DecidableEq

/-- The failure of an access. -/
def Reply.error? {κ : Type} : Reply κ → Option AccessError
  | access (.error error) => some error
  | _ => none

/-- A request with the reply to it. -/
structure Exchange (κ : Type) where
  request : Request κ
  reply : Reply κ

/-- The failure belongs to the request: the separator is not in disorder, and only a read misses. -/
structure Exchange.Lawful {κ : Type} (exchange : Exchange κ) : Prop where
  not_invariant : ∀ detail, exchange.reply.error? ≠ some (.invariant detail)
  get_of_notFound : exchange.reply.error? = some .notFound →
    exchange.request matches .get _ _

theorem Reply.error?_access {κ : Type} {outcome : Access} {error : AccessError} :
    (access outcome : Reply κ).error? = some error ↔ outcome = .error error := by
  cases outcome with
  | ok _ => simp [error?]
  | error other => simp [error?]

section

variable [HashMaterial κ] [Ord κ]

def serve (inst : Instance κ) : Request κ → Reply κ × Instance κ
  | .put now key => Prod.map .access id (inst.put now key)
  | .get now key => Prod.map .access id (inst.get now key)
  | .isHot now key => Prod.map .hot id (inst.isHot now key)
  | .hotKeys now => Prod.map .keys id (inst.hotKeys now)

/-- The instance after some requests, one after the other. -/
def after (inst : Instance κ) (requests : List (Request κ)) : Instance κ :=
  requests.foldl (fun inst request ↦ (inst.serve request).2) inst

/-- The requests with the replies to them, in order. -/
def log (inst : Instance κ) : List (Request κ) → List (Exchange κ)
  | [] => []
  | request :: requests =>
    ⟨request, (inst.serve request).1⟩ :: (inst.serve request).2.log requests

theorem request_log (inst : Instance κ) (requests : List (Request κ)) :
    (inst.log requests).map (·.request) = requests := by
  induction requests generalizing inst with
  | nil => rfl
  | cons request requests ih => rw [log, List.map_cons, ih]

end

end Instance

/-! ## Counters of a log -/

namespace Counters

open Instance

variable {κ : Type}

/-- The numbers of requests and replies of each kind. -/
def ofLog (log : List (Exchange κ)) : Counters where
  putCalls := log.countP (·.request matches .put _ _)
  getCalls := log.countP (·.request matches .get _ _)
  notFound := log.countP (·.reply.error? matches some .notFound)
  capacityErrors := log.countP (·.reply.error? matches some .capacity)
  unimplementedErrors := log.countP (·.reply.error? matches some (.unimplemented _))
  invariantErrors := log.countP (·.reply.error? matches some (.invariant _))
  hotChecks := log.countP (·.request matches .isHot _ _)
  hotHits := log.countP fun exchange ↦
    exchange.request matches .isHot _ _ && exchange.reply matches .hot true
  hotKeysCalls := log.countP (·.request matches .hotKeys _)

variable (log : List (Exchange κ)) (now : Nat) (key : κ)

theorem recordPut_ofLog (outcome : Access) :
    (ofLog log).recordPut outcome = ofLog (log ++ [⟨.put now key, .access outcome⟩]) := by
  cases outcome with
  | ok _ => simp [ofLog, recordPut, recordOutcome, Reply.error?]
  | error error => cases error <;> simp [ofLog, recordPut, recordOutcome, Reply.error?]

theorem recordGet_ofLog (outcome : Access) :
    (ofLog log).recordGet outcome = ofLog (log ++ [⟨.get now key, .access outcome⟩]) := by
  cases outcome with
  | ok _ => simp [ofLog, recordGet, recordOutcome, Reply.error?]
  | error error => cases error <;> simp [ofLog, recordGet, recordOutcome, Reply.error?]

theorem recordHotCheck_ofLog (answer : Bool) :
    (ofLog log).recordHotCheck answer = ofLog (log ++ [⟨.isHot now key, .hot answer⟩]) := by
  cases answer <;> simp [ofLog, recordHotCheck, Reply.error?]

theorem recordHotKeys_ofLog (answer : List κ) :
    (ofLog log).recordHotKeys = ofLog (log ++ [⟨.hotKeys now, .keys answer⟩]) := by
  simp [ofLog, recordHotKeys, Reply.error?]

/-- Every failure is counted under one kind. -/
theorem failures_ofLog :
    (ofLog log).notFound + (ofLog log).capacityErrors + (ofLog log).unimplementedErrors +
      (ofLog log).invariantErrors = log.countP (·.reply.error?.isSome) := by
  induction log with
  | nil => rfl
  | cons exchange log ih =>
    simp only [ofLog, List.countP_cons] at ih ⊢
    cases exchange.reply.error? with
    | none =>
      simp only [Bool.false_eq_true, if_false, Option.isSome_none]
      omega
    | some error =>
      cases error <;>
        simp only [Bool.false_eq_true, if_false, if_true, Option.isSome_some] <;> omega

end Counters

/-! ## Runs -/

namespace Instance

variable [HashMaterial κ] [Ord κ] {inst : Instance κ} {spec : Spec}

theorem counters_serve {earlier : List (Exchange κ)} (h : inst.counters = .ofLog earlier)
    (request : Request κ) :
    (inst.serve request).2.counters = .ofLog (earlier ++ [⟨request, (inst.serve request).1⟩]) := by
  obtain ⟨name, separator, counters⟩ := inst
  cases h
  cases request with
  | put now key => exact Counters.recordPut_ofLog earlier now key _
  | get now key => exact Counters.recordGet_ofLog earlier now key _
  | isHot now key => exact Counters.recordHotCheck_ofLog earlier now key _
  | hotKeys now => exact Counters.recordHotKeys_ofLog earlier now _

theorem counters_after {earlier : List (Exchange κ)} (h : inst.counters = .ofLog earlier)
    (requests : List (Request κ)) :
    (inst.after requests).counters = .ofLog (earlier ++ inst.log requests) := by
  induction requests generalizing inst earlier with
  | nil => rwa [log, List.append_nil]
  | cons request requests ih =>
    rw [log, List.append_cons]
    exact ih (counters_serve h request)

variable [LawfulBEq κ]

theorem serves_serve (h : inst.separator.Serves spec) (request : Request κ) :
    (inst.serve request).2.separator.Serves spec := by
  cases request with
  | put now key => exact h.put now key
  | get now key => exact h.get now key
  | isHot now key => exact h
  | hotKeys now => exact h

theorem lawful_serve (h : inst.separator.Serves spec) (request : Request κ) :
    Exchange.Lawful ⟨request, (inst.serve request).1⟩ := by
  cases request with
  | put now key =>
    have houtcome : (inst.put now key).1 = spec.putAnswer := h.put_fst now key
    constructor
    · intro detail
      rw [serve, Prod.map_fst, houtcome, Ne, Reply.error?_access]
      exact spec.putAnswer_ne_invariant detail
    · intro hmiss
      rw [serve, Prod.map_fst, houtcome, Reply.error?_access] at hmiss
      obtain ⟨⟨⟩, -⟩ | ⟨policy, ⟨⟩, -⟩ := Spec.putAnswer_eq_error hmiss
  | get now key =>
    have houtcome : (inst.get now key).1 = spec.getAnswer (inst.separator.tracks key) :=
      h.get_fst now key
    constructor
    · intro detail
      rw [serve, Prod.map_fst, houtcome, Ne, Reply.error?_access]
      exact spec.getAnswer_ne_invariant _ detail
    · intro _
      rfl
  | isHot now key => exact ⟨fun detail ↦ nofun, nofun⟩
  | hotKeys now => exact ⟨fun detail ↦ nofun, nofun⟩

theorem serves_after (h : inst.separator.Serves spec) (requests : List (Request κ)) :
    (inst.after requests).separator.Serves spec := by
  induction requests generalizing inst with
  | nil => exact h
  | cons request requests ih => exact ih (serves_serve h request)

theorem lawful_log (h : inst.separator.Serves spec) {requests : List (Request κ)} :
    ∀ exchange ∈ inst.log requests, exchange.Lawful := by
  induction requests generalizing inst with
  | nil => exact List.forall_mem_nil _
  | cons request requests ih =>
    exact List.forall_mem_cons.2 ⟨lawful_serve h request, ih (serves_serve h request)⟩

end Instance

namespace Counters

open Instance

variable {κ : Type} {log : List (Exchange κ)}

theorem notFound_le_getCalls (h : ∀ exchange ∈ log, exchange.Lawful) :
    (ofLog log).notFound ≤ (ofLog log).getCalls := by
  apply List.countP_mono_left
  intro exchange hmem hmiss
  apply (h exchange hmem).get_of_notFound
  split at hmiss
  · assumption
  · cases hmiss

theorem invariantErrors_eq_zero (h : ∀ exchange ∈ log, exchange.Lawful) :
    (ofLog log).invariantErrors = 0 := by
  apply List.countP_eq_zero.2
  intro exchange hmem hbroken
  split at hbroken
  · rename_i detail herror
    exact (h exchange hmem).not_invariant detail herror
  · cases hbroken

theorem hotHits_le_hotChecks : (ofLog log).hotHits ≤ (ofLog log).hotChecks := by
  apply List.countP_mono_left
  intro exchange _ hhit
  exact (Bool.and_eq_true_iff.1 hhit).1

end Counters

namespace Instance

variable [HashMaterial κ] [Ord κ] [LawfulBEq κ] {spec : Spec}

/-- From a new instance on, the counters are the numbers of requests and replies of each kind. The
failures are counted under four kinds, of which misses are no more than reads and disorder never
occurs. A snapshot shows the size and the capacity of the separator at that moment. -/
theorem conserved_of_log {session : Session κ} (h : session.Reachable spec) (name : String)
    (requests : List (Request κ)) :
    let start := ofSeparator name session.separator
    let log := start.log requests
    let after := start.after requests
    log.map (·.request) = requests ∧
      after.counters = .ofLog log ∧
      after.counters.notFound + after.counters.capacityErrors +
          after.counters.unimplementedErrors + after.counters.invariantErrors =
        log.countP (·.reply.error?.isSome) ∧
      after.counters.notFound ≤ after.counters.getCalls ∧
      after.counters.invariantErrors = 0 ∧
      after.counters.hotHits ≤ after.counters.hotChecks ∧
      after.snapshot.counters = after.counters ∧
      after.snapshot.residentKeys = after.separator.size ∧
      after.snapshot.capacity = after.separator.capacity? ∧
      after.separator.capacity? = spec.capacity? := by
  intro start log after
  have hserves : start.separator.Serves spec := Separator.Meets.serves h.meets
  have hnew : start.counters = .ofLog ([] : List (Exchange κ)) := rfl
  have hcounters : after.counters = .ofLog log := counters_after hnew requests
  have hlawful : ∀ exchange ∈ log, exchange.Lawful := lawful_log hserves
  rw [hcounters]
  exact ⟨start.request_log requests, rfl, Counters.failures_ofLog log,
    Counters.notFound_le_getCalls hlawful, Counters.invariantErrors_eq_zero hlawful,
    Counters.hotHits_le_hotChecks, hcounters, rfl, rfl,
    (serves_after hserves requests).capacity?_eq⟩

/-- Writes, reads and questions, at times that go back. -/
def twoKeys : List (Request UInt64) :=
  [.put 3 1, .put 2 2, .get 2 1, .get 1 2, .isHot 0 2, .isHot 0 1, .hotKeys 0]

/-- The first key is evicted by the second, so the read of it misses and it is not hot. -/
theorem conserved_of_log_lru :
    (⟨.lru (.empty 1), 0⟩ : Session UInt64).Reachable (.lru 1) ∧
      ((ofSeparator "lru" (.lru (.empty 1))).log twoKeys).map (·.reply) =
        [.access (.ok ()), .access (.ok ()), .access (.error .notFound), .access (.ok ()),
          .hot true, .hot false, .keys [2]] ∧
      ((ofSeparator "lru" (.lru (.empty 1))).after twoKeys).counters =
        ⟨2, 2, 1, 0, 0, 0, 2, 1, 1⟩ := by
  have hreachable : (⟨.lru (.empty 1), 0⟩ : Session UInt64).Reachable (.lru 1) :=
    ⟨_, 0, [], rfl, rfl⟩
  obtain ⟨-, hcounters, -⟩ := conserved_of_log hreachable "lru" twoKeys
  refine ⟨hreachable, by cbv, hcounters.trans ?_⟩
  cbv

end Instance

end KeyHeat

import KeyHeat.Proofs.Separator.Session

/-!
# Refused accesses

An access that a separator refuses leaves it as it was, under every policy but the three-queue one,
whose clock counts the reads that miss as well. What is refused is an access to a separator without
room or without an implementation, or a read of a key that is not tracked. The main result is on
sessions: leaving out whatever is refused changes neither what is left of the session nor where it
ends.
-/

namespace KeyHeat

/-! ## One access -/

/-- An access succeeds or leaves the state as it was. -/
def Intact {σ : Type} (state : σ) (outcome : Access × σ) : Prop :=
  outcome.1 = .ok () ∨ outcome.2 = state

variable {κ : Type} [BEq κ] [Hashable κ]

variable [LawfulBEq κ]

theorem Lru.Valid.intact_put {lru : Lru κ} (h : lru.Valid) (key : κ) :
    Intact lru (lru.put key) := by
  rw [h.put_eq]
  split_ifs with hzero hresident
  · exact .inr rfl
  · exact .inl rfl
  · exact .inl rfl

/-- A key that the index leads to is in the list, so that a read of it does not miss. -/
theorem Lru.Valid.intact_get {lru : Lru κ} (h : lru.Valid) (key : κ) :
    Intact lru (lru.get key) := by
  rw [h.get_eq]
  split_ifs with hresident
  · exact .inl rfl
  · exact .inr rfl

theorem Lfu.Valid.intact_put {lfu : Lfu κ} (h : lfu.Valid) (key : κ) :
    Intact lfu (lfu.put key) := by
  rw [h.put_eq]
  split_ifs with hzero
  · exact .inr rfl
  · split
    · exact .inl rfl
    · exact .inl rfl

/-- The bucket of a tracked key is there and holds it, so that no move between buckets is left half
done. -/
theorem Lfu.Valid.intact_get {lfu : Lfu κ} (h : lfu.Valid) (key : κ) :
    Intact lfu (lfu.get key) := by
  rw [h.get_eq]
  split
  · exact .inl rfl
  · exact .inr rfl

/-- The node of a tracked key is there, and that of a LIR key is in the stack, so that nothing is
refused once an access has begun. -/
theorem Lirs.Valid.intact_put {lirs : Lirs κ} (h : lirs.Valid) (key : κ) :
    Intact lirs (lirs.put key) := by
  rcases Nat.eq_zero_or_pos lirs.capacity with hzero | hpos
  · rw [put_of_capacity_eq_zero hzero]
    exact .inr rfl
  · exact .inl (h.put_serves hpos key).1

theorem Lirs.Valid.intact_get {lirs : Lirs κ} (h : lirs.Valid) (key : κ) :
    Intact lirs (lirs.get key) := by
  by_cases hnone : lirs.index[key]? = none
  · rw [get_of_index_eq_none hnone]
    exact .inr rfl
  · exact .inl (h.get_serves (mt h.arranged.wired.status?_eq_none.1 hnone)).1

omit [LawfulBEq κ]

theorem LruK.intact_put (lruK : LruK κ) (key : κ) : Intact lruK (lruK.put key) := by
  unfold LruK.put
  split_ifs with hzero
  · exact .inr rfl
  · split
    · exact .inl rfl
    · exact .inl rfl

theorem LruK.intact_get (lruK : LruK κ) (key : κ) : Intact lruK (lruK.get key) := by
  unfold LruK.get
  split
  · exact .inl rfl
  · exact .inr rfl

theorem TopK.intact_access (topK : TopK κ) (key : κ) : Intact topK (topK.access key) := by
  unfold TopK.access
  split_ifs with hzero
  · exact .inr rfl
  · exact .inl rfl

section
variable [HashMaterial κ]

theorem SketchWindow.intact_access (sketch : SketchWindow κ) (key : κ) :
    Intact sketch (sketch.access key) := by
  unfold SketchWindow.access
  split_ifs with hzero
  · exact .inr rfl
  · exact .inl rfl

theorem TinyLfu.intact_access (cache : TinyLfu κ) (key : κ) : Intact cache (cache.access key) := by
  unfold TinyLfu.access
  split_ifs with hzero
  · exact .inr rfl
  · exact .inl rfl

end

/-! ## Accesses under any policy -/

namespace Separator

theorem intact_lift {σ : Type} {state : σ} {outcome : Access × σ} (wrap : σ → Separator κ)
    (h : Intact state outcome) : Intact (wrap state) (lift wrap outcome) :=
  h.imp_right (congrArg wrap)

variable [HashMaterial κ] [LawfulBEq κ]

theorem Meets.intact_put {spec : Spec} {separator : Separator κ} {now : Nat}
    (h : Meets now spec separator) (hpolicy : spec.policy ≠ .s3Fifo) (key : κ) :
    Intact separator (separator.put now key) := by
  cases h with
  | lru hvalid _ => exact intact_lift .lru (hvalid.intact_put key)
  | lfu hvalid _ => exact intact_lift .lfu (hvalid.intact_put key)
  | lruK _ _ => exact intact_lift .lruK (LruK.intact_put _ key)
  | window _ => exact .inl rfl
  | sketchWindow _ _ => exact intact_lift .sketchWindow (SketchWindow.intact_access _ key)
  | wTinyLfu _ _ => exact intact_lift .wTinyLfu (TinyLfu.intact_access _ key)
  | lirs hvalid _ => exact intact_lift .lirs (hvalid.intact_put key)
  | s3Fifo _ _ => exact absurd rfl hpolicy
  | heapTopK _ _ => exact intact_lift .heapTopK (TopK.intact_access _ key)
  | unimplemented => exact .inr rfl

theorem Meets.intact_get {spec : Spec} {separator : Separator κ} {now : Nat}
    (h : Meets now spec separator) (hpolicy : spec.policy ≠ .s3Fifo) (key : κ) :
    Intact separator (separator.get now key) := by
  cases h with
  | lru hvalid _ => exact intact_lift .lru (hvalid.intact_get key)
  | lfu hvalid _ => exact intact_lift .lfu (hvalid.intact_get key)
  | lruK _ _ => exact intact_lift .lruK (LruK.intact_get _ key)
  | window _ => exact .inl rfl
  | sketchWindow _ _ => exact intact_lift .sketchWindow (SketchWindow.intact_access _ key)
  | wTinyLfu _ _ => exact intact_lift .wTinyLfu (TinyLfu.intact_access _ key)
  | lirs hvalid _ => exact intact_lift .lirs (hvalid.intact_get key)
  | s3Fifo _ _ => exact absurd rfl hpolicy
  | heapTopK _ _ => exact intact_lift .heapTopK (TopK.intact_access _ key)
  | unimplemented => exact .inr rfl

end Separator

/-! ## Why an access is refused -/

namespace Spec

/-- What the answers to writes have against them. -/
theorem putAnswer_eq_error {spec : Spec} {error : AccessError} (h : spec.putAnswer = .error error) :
    (error = .capacity ∧ spec.capacity? = some 0) ∨
      ∃ policy, error = .unimplemented policy ∧ spec = .unimplemented policy := by
  unfold putAnswer at h
  split at h
  · cases h
    exact .inr ⟨_, rfl, rfl⟩
  · split_ifs at h with hzero
    cases h
    exact .inl ⟨rfl, hzero⟩

/-- A read is refused for want of the key, or for what writes are refused for. -/
theorem getAnswer_eq_error {spec : Spec} {tracked : Bool} {error : AccessError}
    (h : spec.getAnswer tracked = .error error) :
    (error = .notFound ∧ tracked = false) ∨ spec.putAnswer = .error error := by
  have hlookup (h : (if tracked then .ok () else .error .notFound : Access) = .error error) :
      error = .notFound ∧ tracked = false := by
    split_ifs at h with htracked
    cases h
    exact ⟨rfl, Bool.eq_false_iff.2 htracked⟩
  cases spec with
  | lru | lfu | lruK | lirs | s3Fifo => exact .inl (hlookup h)
  | window | sketchWindow | wTinyLfu | heapTopK | unimplemented => exact .inr h

end Spec

namespace Session

variable {spec : Spec}

/-- What an event may be refused for: that the policy is only a name, that there is no room for any
key, or that a key to be read is not tracked. -/
inductive Refuses (session : Session κ) (spec : Spec) : Event κ → AccessError → Prop
  | name {event : Event κ} {policy : Policy} (h : spec = .unimplemented policy) :
    Refuses session spec event (.unimplemented policy)
  | room {event : Event κ} (h : spec.capacity? = some 0) : Refuses session spec event .capacity
  | key {key : κ} (h : session.separator.tracks key = false) :
    Refuses session spec (.get key) .notFound

theorem refuses_of_putAnswer {session : Session κ} {error : AccessError}
    (h : spec.putAnswer = .error error) (event : Event κ) : session.Refuses spec event error := by
  obtain ⟨rfl, hzero⟩ | ⟨policy, rfl, hname⟩ := Spec.putAnswer_eq_error h
  · exact .room hzero
  · exact .name hname

variable [HashMaterial κ]

/-- The answer to an event. That time passes is never refused. -/
def answer (session : Session κ) : Event κ → Access
  | .put key => (session.separator.put session.now key).1
  | .get key => (session.separator.get session.now key).1
  | .wait _ => .ok ()

theorem Meets.refuses [LawfulBEq κ] {session : Session κ} (h : session.Meets spec)
    {event : Event κ} {error : AccessError} (herror : session.answer event = .error error) :
    session.Refuses spec event error := by
  cases event with
  | put key => exact refuses_of_putAnswer ((Separator.Meets.put_fst h key).symm.trans herror) _
  | get key =>
    have hanswer := (Separator.Meets.get_fst h key).symm.trans herror
    obtain ⟨rfl, hunknown⟩ | hput := Spec.getAnswer_eq_error hanswer
    · exact .key hunknown
    · exact refuses_of_putAnswer hput _
  | wait time => cases herror

/-! ## Sessions without what is refused -/

theorem Meets.step_of_refused [LawfulBEq κ] {session : Session κ} (hmeets : session.Meets spec)
    (hpolicy : spec.policy ≠ .s3Fifo) {event : Event κ} {error : AccessError}
    (h : session.answer event = .error error) : session.step event = session := by
  cases event with
  | put key =>
    obtain hok | hsame := Separator.Meets.intact_put hmeets hpolicy key
    · cases hok.symm.trans h
    · rw [Session.step, hsame]
  | get key =>
    obtain hok | hsame := Separator.Meets.intact_get hmeets hpolicy key
    · cases hok.symm.trans h
    · rw [Session.step, hsame]
  | wait time => cases h

/-- An event with its answer and the session that it leaves. -/
structure Exchange (κ : Type) [BEq κ] [Hashable κ] where
  event : Event κ
  answer : Access
  after : Session κ

def Exchange.isAccepted (exchange : Exchange κ) : Bool := exchange.answer matches .ok ()

/-- All that happens in a session, in order. -/
def transcript (session : Session κ) : List (Event κ) → List (Exchange κ)
  | [] => []
  | event :: events =>
    ⟨event, session.answer event, session.step event⟩ :: transcript (session.step event) events

/-- The events of a session that are not refused. -/
def accepted (session : Session κ) (events : List (Event κ)) : List (Event κ) :=
  ((session.transcript events).filter (·.isAccepted)).map (·.event)

theorem filter_transcript_of_ok {session : Session κ} {event : Event κ}
    (h : session.answer event = .ok ()) (events : List (Event κ)) :
    (session.transcript (event :: events)).filter (·.isAccepted) =
      ⟨event, .ok (), session.step event⟩ ::
        ((session.step event).transcript events).filter (·.isAccepted) := by
  rw [transcript, h, List.filter_cons_of_pos rfl]

theorem filter_transcript_of_error {session : Session κ} {event : Event κ} {error : AccessError}
    (h : session.answer event = .error error) (events : List (Event κ)) :
    (session.transcript (event :: events)).filter (·.isAccepted) =
      ((session.step event).transcript events).filter (·.isAccepted) := by
  rw [transcript, h, List.filter_cons_of_neg Bool.false_ne_true]

theorem accepted_of_ok {session : Session κ} {event : Event κ} (h : session.answer event = .ok ())
    (events : List (Event κ)) :
    session.accepted (event :: events) = event :: (session.step event).accepted events := by
  rw [accepted, filter_transcript_of_ok h, List.map_cons, accepted]

theorem accepted_of_error {session : Session κ} {event : Event κ} {error : AccessError}
    (h : session.answer event = .error error) (events : List (Event κ)) :
    session.accepted (event :: events) = (session.step event).accepted events := by
  rw [accepted, filter_transcript_of_error h, accepted]

variable [LawfulBEq κ]

theorem Meets.transcript_accepted {session : Session κ} (h : session.Meets spec)
    (hpolicy : spec.policy ≠ .s3Fifo) (events : List (Event κ)) :
    session.transcript (session.accepted events) =
        (session.transcript events).filter (·.isAccepted) ∧
      session.run (session.accepted events) = session.run events := by
  induction events generalizing session with
  | nil => exact ⟨rfl, rfl⟩
  | cons event events ih =>
    obtain ⟨htranscript, hrun⟩ := ih (h.step event)
    cases hanswer : session.answer event with
    | ok _ =>
      rw [accepted_of_ok hanswer, filter_transcript_of_ok hanswer]
      constructor
      · rw [transcript, hanswer, htranscript]
      · exact hrun
    | error error =>
      have hsame := h.step_of_refused hpolicy hanswer
      rw [accepted_of_error hanswer, filter_transcript_of_error hanswer]
      rw [hsame] at htranscript hrun ⊢
      constructor
      · exact htranscript
      · rw [hrun, Session.run, Session.run, List.foldl_cons, hsame]

/-- What is refused leaves the session as it was, and is refused for a reason. So without what is
refused, everything else that happens in the session stays the same, answers and states alike, and
so does its end. -/
theorem unchanged_by_refusals {session : Session κ} (h : session.Reachable spec)
    (hpolicy : spec.policy ≠ .s3Fifo) :
    (∀ event error, session.answer event = .error error →
      session.step event = session ∧ session.Refuses spec event error) ∧
      ∀ events : List (Event κ),
        session.transcript (session.accepted events) =
            (session.transcript events).filter (·.isAccepted) ∧
          session.run (session.accepted events) = session.run events := by
  have hmeets : session.Meets spec := h.meets
  constructor
  · intro event error herror
    exact ⟨hmeets.step_of_refused hpolicy herror, hmeets.refuses herror⟩
  · intro events
    exact hmeets.transcript_accepted hpolicy events

/-- The reads of a key that was never written and of one that has been evicted are refused. -/
theorem unchanged_by_refusals_lru :
    (⟨.lru (.empty 1), 0⟩ : Session UInt64).Reachable (.lru 1) ∧ (Spec.lru 1).policy ≠ .s3Fifo ∧
      (⟨.lru (.empty 1), 0⟩ : Session UInt64).accepted
        [.put 1, .get 9, .put 2, .wait 3, .get 1, .get 2] = [.put 1, .put 2, .wait 3, .get 2] ∧
      run (κ := UInt64) ⟨.lru (.empty 1), 0⟩ [.put 1, .put 2, .wait 3, .get 2] =
        run ⟨.lru (.empty 1), 0⟩ [.put 1, .get 9, .put 2, .wait 3, .get 1, .get 2] := by
  have hreachable : (⟨.lru (.empty 1), 0⟩ : Session UInt64).Reachable (.lru 1) :=
    ⟨_, 0, [], rfl, rfl⟩
  have hpolicy : (Spec.lru 1).policy ≠ .s3Fifo := by decide
  have haccepted : (⟨.lru (.empty 1), 0⟩ : Session UInt64).accepted
      [.put 1, .get 9, .put 2, .wait 3, .get 1, .get 2] = [.put 1, .put 2, .wait 3, .get 2] := by
    cbv
  have hrun := ((unchanged_by_refusals hreachable hpolicy).2
    [.put 1, .get 9, .put 2, .wait 3, .get 1, .get 2]).2
  rw [haccepted] at hrun
  exact ⟨hreachable, hpolicy, haccepted, hrun⟩

end Session

end KeyHeat

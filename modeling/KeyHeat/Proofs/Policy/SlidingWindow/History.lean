import KeyHeat.Proofs.Policy.Accesses
import KeyHeat.Proofs.Policy.SlidingWindow

/-!
# A time window answers from its whole history

While the clock does not fall, the young accesses of the queue are those of the whole history, at
every time from the last access on. An access drops the old ones and a query only discounts them,
and neither can be told from the other by any answer.
-/

namespace KeyHeat.SlidingWindow

variable {κ : Type} {history : List (Nat × κ)} {span now later : Nat}

/-! ## The accesses within a span -/

/-- The accesses that are no older than `span` at `now`. -/
def within (span now : Nat) (history : List (Nat × κ)) : List (Nat × κ) :=
  history.filter fun (time, _) ↦ now - time ≤ span

/-- In the order of time the young accesses are those behind the first young one. -/
theorem dropWhile_isExpired (hsorted : history.Pairwise fun first second ↦ first.1 ≤ second.1) :
    history.dropWhile (fun (time, _) ↦ isExpired span now time) = within span now history := by
  have hold : within span now (history.takeWhile fun (time, _) ↦ isExpired span now time) = [] := by
    rw [within, List.filter_eq_nil_iff]
    intro access hmem
    have hexpired := List.mem_takeWhile_imp hmem
    simp only [isExpired, decide_eq_true_eq] at hexpired ⊢
    omega
  have hyoung : within span now (history.dropWhile fun (time, _) ↦ isExpired span now time) =
      history.dropWhile fun (time, _) ↦ isExpired span now time := by
    rw [within, List.filter_eq_self]
    intro access hmem
    simpa [isExpired] using not_expired_of_mem_dropWhile hsorted hmem
  calc
    _ = within span now (history.takeWhile fun (time, _) ↦ isExpired span now time) ++
        within span now (history.dropWhile fun (time, _) ↦ isExpired span now time) := by
      rw [hold, hyoung, List.nil_append]
    _ = within span now history := by
      rw [within, within, ← List.filter_append, List.takeWhile_append_dropWhile, within]

/-- What is too old stays too old. -/
theorem within_within (hle : now ≤ later) :
    within span later (within span now history) = within span later history := by
  rw [within, within, List.filter_filter]
  apply List.filter_congr
  intro access _
  simp only [Bool.and_eq_left_iff_imp, decide_eq_true_eq]
  omega

theorem within_concat (key : κ) :
    within span now (history ++ [(now, key)]) = within span now history ++ [(now, key)] := by
  simp [within]

/-! ## The young accesses of the queue -/

variable [BEq κ] [Hashable κ] {window : SlidingWindow κ}

/-- The outcome of an access and the state that it leaves. Calls carry the time of the clock, and
reads and writes are served alike. -/
def serve : Service (SlidingWindow κ) (Nat × κ) :=
  fun window call ↦ window.access call.key.1 call.key.2

theorem limits_of_run {start : SlidingWindow κ} {threshold : Nat}
    (hstart : create span threshold = .ok start) (calls : List (Call (Nat × κ))) :
    (serve.run start calls).span = span ∧ (serve.run start calls).threshold = threshold := by
  apply serve.run_invariant (P := fun state ↦ state.span = span ∧ state.threshold = threshold)
  · exact fun _ _ hsame ↦ hsame
  · unfold create at hstart
    split_ifs at hstart
    cases hstart
    exact ⟨rfl, rfl⟩

/-- From now on, the young accesses of the queue are those of the history. -/
structure Tracks (history : List (Nat × κ)) (window : SlidingWindow κ) (now : Nat) : Prop where
  valid : window.Valid now
  current_eq : ∀ later, now ≤ later → window.current later = within window.span later history

theorem Tracks.mono (h : Tracks history window now) (hle : now ≤ later) :
    Tracks history window later where
  valid := h.valid.mono hle
  current_eq time htime := h.current_eq time (hle.trans htime)

theorem Valid.current_eq_within (h : window.Valid now) (later : Nat) :
    window.current later = within window.span later window.accesses.toList :=
  dropWhile_isExpired h.sorted

theorem tracks_create {threshold : Nat} (h : create span threshold = .ok window) (now : Nat) :
    Tracks [] window now where
  valid := valid_create h now
  current_eq later _ := by
    unfold create at h
    split_ifs at h
    cases h
    rfl

variable [LawfulBEq κ]

theorem Tracks.expire {before : Nat} (h : Tracks history window before) (hle : before ≤ now) :
    Tracks history (window.expire now) now where
  valid := h.valid.expire hle
  current_eq later hlater := by
    rw [(h.valid.expire hle).current_eq_within, h.valid.accesses_expire, h.current_eq now hle]
    exact within_within hlater

theorem Tracks.record {before : Nat} (h : Tracks history window before) (hle : before ≤ now)
    (key : κ) : Tracks (history ++ [(now, key)]) (window.record now key) now where
  valid := h.valid.record hle key
  current_eq later hlater := by
    have hexpire := (h.expire hle).current_eq later hlater
    rw [(h.valid.expire hle).current_eq_within] at hexpire
    rw [(h.valid.record hle key).current_eq_within, accesses_record, within, within,
      List.filter_append, List.filter_append]
    exact congrArg (· ++ _) hexpire

theorem tracks_of_run {start : SlidingWindow κ} {threshold : Nat}
    (hstart : create span threshold = .ok start) {calls : List (Call (Nat × κ))}
    (hclock : (calls.map Call.key).Pairwise fun first second ↦ first.1 ≤ second.1)
    (hnow : ∀ access ∈ calls.map Call.key, access.1 ≤ now) :
    Tracks (calls.map Call.key) (serve.run start calls) now := by
  induction calls using List.reverseRecOn generalizing now with
  | nil => exact tracks_create hstart now
  | append_singleton calls call ih =>
    rw [List.map_append, List.pairwise_append] at hclock
    rw [List.map_append, List.forall_mem_append] at hnow
    rw [Service.run_concat, List.map_append]
    -- The clock reads as much at the last call as at any before it.
    have hbefore : Tracks (calls.map Call.key) (serve.run start calls) call.key.1 := by
      apply ih hclock.1
      intro access hmem
      exact hclock.2.2 access hmem call.key (List.mem_singleton_self _)
    apply (hbefore.record (Nat.le_refl _) call.key.2).mono
    exact hnow.2 call.key (List.mem_singleton_self _)

/-! ## Answers -/

/-- The keys are listed by their latest accesses. -/
theorem byRecency_distinct (keys : List κ) (seen : Std.HashMap κ Unit) :
    ByRecency keys (recentKeys.distinct seen keys) := by
  induction keys generalizing seen with
  | nil => exact List.Pairwise.nil
  | cons first rest ih =>
    rw [recentKeys.distinct]
    split_ifs with hseen
    · apply (ih seen).log_other
      rw [mem_distinct]
      exact fun hmem ↦ hmem.2 (Std.HashMap.contains_iff_mem.1 hseen)
    · apply (ih _).log_front
      rw [mem_distinct]
      exact fun hmem ↦ hmem.2 Std.HashMap.mem_insert_self

theorem Tracks.byRecency_hotKeys (h : Tracks history window now)
    (hsorted : history.Pairwise fun first second ↦ first.1 ≤ second.1) :
    ByRecency (history.map (·.2)).reverse (window.hotKeys now) := by
  have hsuffix : window.current now <:+ history := by
    rw [h.current_eq now (Nat.le_refl _), ← dropWhile_isExpired hsorted]
    exact List.dropWhile_suffix _
  obtain ⟨old, hold⟩ := hsuffix
  have hrecent := byRecency_distinct ((window.current now).reverse.map (·.2)) ∅
  rw [h.valid.hotKeys_eq, ← hold, List.map_append, List.reverse_append, ← List.map_reverse]
  apply (hrecent.sublist List.filter_sublist).log_append
  intro key hmem
  exact (mem_distinct.1 (List.mem_of_mem_filter hmem)).1

/-- The queue stays counted while it is drained. -/
theorem Counted.drained {queue : Fifo (Nat × κ)} {counts : Std.HashMap κ Nat}
    (h : Counted counts queue.toList) (span now fuel : Nat) :
    Counted (expire.drain span now queue counts fuel).2
      (expire.drain span now queue counts fuel).1.toList := by
  induction fuel generalizing queue counts with
  | zero => exact h
  | succ fuel ih =>
    rw [expire.drain, Fifo.peek?_eq_head?]
    have htail := queue.toList_tail
    cases hqueue : queue.toList with
    | nil => exact h
    | cons first rest =>
      rw [hqueue] at htail
      simp only [List.head?_cons]
      split_ifs
      · apply ih
        rw [htail]
        apply Counted.discount
        rwa [hqueue] at h
      · exact h

theorem Counted.pos_of_peek? {queue : Fifo (Nat × κ)} {counts : Std.HashMap κ Nat}
    (h : Counted counts queue.toList) {time : Nat} {key : κ}
    (hpeek : queue.peek? = some (time, key)) : ∃ count, counts[key]? = some count ∧ 1 ≤ count := by
  rw [Fifo.peek?_eq_head?] at hpeek
  have hmem : tally queue.toList key ≠ 0 :=
    tally_ne_zero_iff.2 ⟨(time, key), List.mem_of_mem_head? hpeek, rfl⟩
  refine ⟨tally queue.toList key, ?_, Nat.pos_of_ne_zero hmem⟩
  rw [h, if_neg hmem]

/-- What a separator with some history answers at `now`. A key counts with its accesses within
the span and is hot from the threshold on, the latest accessed first; dropping old accesses
changes no later answer; an access leaves exactly the accesses within the span in the queue; and
every access that is dropped had been counted. -/
structure Answers (span threshold : Nat) (history : List (Nat × κ)) (window : SlidingWindow κ)
    (now : Nat) : Prop where
  countInWindow_eq : ∀ key, window.countInWindow now key = tally (within span now history) key
  nodup_hotKeys : (window.hotKeys now).Nodup
  mem_hotKeys : ∀ key, key ∈ window.hotKeys now ↔ threshold ≤ tally (within span now history) key
  byRecency_hotKeys : ByRecency (history.map (·.2)).reverse (window.hotKeys now)
  countInWindow_expire : ∀ later, now ≤ later → ∀ key,
    (window.expire now).countInWindow later key = window.countInWindow later key
  hotKeys_expire : ∀ later, now ≤ later → (window.expire now).hotKeys later = window.hotKeys later
  accesses_access : ∀ key, (window.access now key).2.accesses.toList =
    within span now (history ++ [(now, key)])
  discount_pos : ∀ fuel time key,
    (expire.drain span now window.accesses window.counts fuel).1.peek? = some (time, key) →
    isExpired span now time = true →
    ∃ count, (expire.drain span now window.accesses window.counts fuel).2[key]? = some count ∧
      1 ≤ count

/-- While the clock does not fall, all answers are those of the whole history. -/
theorem answers_of_run {start : SlidingWindow κ} {threshold : Nat}
    (hstart : create span threshold = .ok start) (calls : List (Call (Nat × κ)))
    (hclock : (calls.map Call.key).Pairwise fun first second ↦ first.1 ≤ second.1)
    (hnow : ∀ access ∈ calls.map Call.key, access.1 ≤ now) :
    Answers span threshold (calls.map Call.key) (serve.run start calls) now := by
  have h := tracks_of_run hstart hclock hnow
  have hlimits := limits_of_run hstart calls
  generalize serve.run start calls = window at h hlimits
  obtain ⟨rfl, rfl⟩ := hlimits
  have hcurrent := h.current_eq now (Nat.le_refl _)
  have hexpire := h.expire (Nat.le_refl _)
  have hsame (later : Nat) (hlater : now ≤ later) :
      (window.expire now).current later = window.current later := by
    rw [hexpire.current_eq later hlater, h.current_eq later hlater]
    rfl
  refine {
    countInWindow_eq := ?_
    nodup_hotKeys := window.nodup_hotKeys now
    mem_hotKeys := ?_
    byRecency_hotKeys := h.byRecency_hotKeys hclock
    countInWindow_expire := ?_
    hotKeys_expire := ?_
    accesses_access := ?_
    discount_pos := ?_ }
  · intro key
    rw [h.valid.countInWindow_eq, hcurrent]
  · intro key
    rw [h.valid.mem_hotKeys, isHot, decide_eq_true_eq, h.valid.countInWindow_eq, hcurrent]
  · intro later hlater key
    rw [hexpire.valid.countInWindow_eq, h.valid.countInWindow_eq, hsame later hlater]
  · intro later hlater
    rw [hexpire.valid.hotKeys_eq, h.valid.hotKeys_eq, hsame later hlater]
    rfl
  · intro key
    rw [within_concat, ← hcurrent, ← h.valid.accesses_expire]
    exact accesses_record window now key
  · intro fuel time key hpeek _
    exact (h.valid.counted.drained window.span now fuel).pos_of_peek? hpeek

/-- At time 4 an access at time 1 is just young enough for a span of 3, one at time 0 is not. -/
theorem answers_of_run_three :
    create (κ := Nat) 3 1 = .ok ⟨3, 1, .empty, ∅⟩ ∧
      ([(0, 1), (1, 1), (4, 2)] : List (Nat × Nat)).Pairwise
        (fun first second ↦ first.1 ≤ second.1) ∧
      (∀ access ∈ ([(0, 1), (1, 1), (4, 2)] : List (Nat × Nat)), access.1 ≤ 4) ∧
      (serve.run ⟨3, 1, .empty, ∅⟩ [.put (0, 1), .get (1, 1), .put (4, 2)]).countInWindow 4 1 =
        1 := by
  have hstart : create (κ := Nat) 3 1 = .ok ⟨3, 1, .empty, ∅⟩ := rfl
  have hclock : ([(0, 1), (1, 1), (4, 2)] : List (Nat × Nat)).Pairwise
      fun first second ↦ first.1 ≤ second.1 := by decide
  have hnow : ∀ access ∈ ([(0, 1), (1, 1), (4, 2)] : List (Nat × Nat)), access.1 ≤ 4 := by decide
  have hanswers := answers_of_run hstart [.put (0, 1), .get (1, 1), .put (4, 2)] hclock hnow
  exact ⟨hstart, hclock, hnow, hanswers.countInWindow_eq 1⟩

end KeyHeat.SlidingWindow

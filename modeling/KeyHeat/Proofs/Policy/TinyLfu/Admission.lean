import KeyHeat.Proofs.Policy.Run
import KeyHeat.Proofs.Policy.TinyLfu

/-!
# How Window TinyLFU changes its main area

Keys that are promoted or go back on probation stay in the main area. It changes only when the
window overflows: then the last key of the window takes a free place or, if there is none, that of
the one key it has to beat. So the main area never loses a key without gaining another.
-/

namespace KeyHeat.TinyLfu

variable {κ : Type} [BEq κ] [Hashable κ] {cache : TinyLfu κ} {key : κ}

theorem mem_hotKeys_iff :
    key ∈ cache.hotKeys ↔ key ∈ cache.guarded.toList ∨ key ∈ cache.probation.toList :=
  List.mem_append

theorem Valid.victim?_eq (h : cache.Valid) :
    cache.victim? = cache.probation.toList.getLast?.or cache.guarded.toList.getLast? := by
  rw [victim?, h.segments.valid_probation.peek?_back, h.segments.valid_guarded.peek?_back]

theorem window_replace (victim candidate : κ) :
    (cache.replace victim candidate).window = cache.window := by
  unfold replace
  split <;> rfl

/-! ## Moves within the main area -/

section Moves

variable [LawfulBEq κ] {other : κ}

/-- A promotion may send a key back on probation, but none away. -/
theorem mem_hotKeys_promote (cache : TinyLfu κ) (key : κ) (hprobation : cache.probation.Valid)
    (hguarded : cache.guarded.Valid) :
    other ∈ (cache.promote key).hotKeys ↔ other = key ∨ other ∈ cache.hotKeys := by
  unfold promote
  split_ifs with hzero hfull
  · simp only [mem_hotKeys_iff, hprobation.mem_push]
    tauto
  · rw [hguarded.pop_eq, hguarded.peek?_back]
    cases hlast : cache.guarded.toList.getLast? with
    | none =>
      simp only [mem_hotKeys_iff, hguarded.mem_push]
      tauto
    | some demoted =>
      have hdemoted := List.mem_of_getLast? hlast
      simp only [mem_hotKeys_iff, hprobation.mem_push, (hguarded.erase demoted).mem_push,
        hguarded.mem_erase]
      by_cases heq : other = demoted
      · simp [heq, hdemoted]
      · simp only [heq, ne_eq, not_false_eq_true, true_and, false_or]
        tauto
  · simp only [mem_hotKeys_iff, hguarded.mem_push]
    tauto

theorem mem_hotKeys_replace (cache : TinyLfu κ) (victim candidate : κ)
    (hprobation : cache.probation.Valid) (hguarded : cache.guarded.Valid)
    (hapart : cache.probation.Apart cache.guarded) :
    other ∈ (cache.replace victim candidate).hotKeys ↔
      other = candidate ∨ other ∈ cache.hotKeys ∧ other ≠ victim := by
  rw [replace_eq _ _ _ hprobation]
  split_ifs with hin
  · have hout : other ∈ cache.guarded.toList → other ≠ victim := by
      rintro hmem rfl
      exact hapart other (hprobation.contains_iff.1 hin) hmem
    simp only [mem_hotKeys_iff, (hprobation.erase victim).mem_push, hprobation.mem_erase]
    tauto
  · have hout : other ∈ cache.probation.toList → other ≠ victim := by
      rintro hmem rfl
      exact hin (hprobation.contains_iff.2 hmem)
    simp only [mem_hotKeys_iff, hprobation.mem_push, hguarded.mem_erase]
    tauto

end Moves

/-! ## Contests -/

variable [HashMaterial κ]

/-- The candidate is not let in by the doorkeeper, or has a lower frequency than the victim. -/
def Refused (cache : TinyLfu κ) (candidate victim : κ) : Prop :=
  cache.doorkeeper.contains candidate = false ∨ cache.frequency candidate < cache.frequency victim

/-- The candidate takes a free place, or that of the victim if it is not refused. -/
theorem contest_eq (cache : TinyLfu κ) (candidate : κ) :
    (cache.mainSize < cache.mainQuota ∧ cache.contest candidate =
        { cache with probation := cache.probation.push .front candidate }) ∨
      (cache.mainQuota ≤ cache.mainSize ∧
        (∀ victim, cache.victim? = some victim → cache.Refused candidate victim) ∧
        ∃ doorkeeper, cache.contest candidate = { cache with doorkeeper }) ∨
      ∃ victim, cache.mainQuota ≤ cache.mainSize ∧ cache.victim? = some victim ∧
        ¬cache.Refused candidate victim ∧
        cache.contest candidate = cache.replace victim candidate := by
  unfold contest
  split_ifs with hroom
  · exact .inl ⟨hroom, rfl⟩
  · have hfull := Nat.le_of_not_lt hroom
    cases hvictim : cache.victim? with
    | none => exact .inr (.inl ⟨hfull, by simp, cache.doorkeeper, rfl⟩)
    | some victim =>
      cases hseen : cache.doorkeeper.contains candidate with
      | false =>
        have hrefused : cache.Refused candidate victim := .inl hseen
        simp only [Bloom.allow, hseen, Bool.false_eq_true, if_false, false_and]
        refine .inr (.inl ⟨hfull, ?_, _, rfl⟩)
        intro other hother
        exact Option.some.inj hother ▸ hrefused
      | true =>
        simp only [Bloom.allow, hseen, if_true, true_and]
        split_ifs with hfrequency
        · have haccepted : ¬cache.Refused candidate victim := by
            simp [Refused, hseen, hfrequency]
          exact .inr (.inr ⟨victim, hfull, rfl, haccepted, rfl⟩)
        · have hrefused : cache.Refused candidate victim := .inr (Nat.lt_of_not_le hfrequency)
          refine .inr (.inl ⟨hfull, ?_, _, rfl⟩)
          intro other hother
          exact Option.some.inj hother ▸ hrefused

/-- What comes of a candidate: it finds a free place, is turned away, or beats the victim. -/
inductive Contested (cache : TinyLfu κ) (candidate : κ) : TinyLfu κ → Prop
  | admitted (hroom : cache.mainSize < cache.mainQuota) :
    Contested cache candidate { cache with probation := cache.probation.push .front candidate }
  | rejected (doorkeeper : Bloom) : Contested cache candidate { cache with doorkeeper }
  | won (victim : κ) (hfull : cache.mainQuota ≤ cache.mainSize)
    (hvictim : cache.victim? = some victim)
    (hseen : cache.doorkeeper.contains candidate = true)
    (hfrequency : cache.frequency victim ≤ cache.frequency candidate) :
    Contested cache candidate (cache.replace victim candidate)

theorem contested_contest (cache : TinyLfu κ) (candidate : κ) :
    Contested cache candidate (cache.contest candidate) := by
  rcases cache.contest_eq candidate with ⟨hroom, heq⟩ | ⟨-, -, doorkeeper, heq⟩ |
    ⟨victim, hfull, hvictim, haccepted, heq⟩
  · rw [heq]
    exact .admitted hroom
  · rw [heq]
    exact .rejected doorkeeper
  · rw [Refused, not_or, Bool.not_eq_false, Nat.not_lt] at haccepted
    rw [heq]
    exact .won victim hfull hvictim haccepted.1 haccepted.2

theorem window_contest (candidate : κ) : (cache.contest candidate).window = cache.window := by
  have hcontested := cache.contested_contest candidate
  generalize cache.contest candidate = after at hcontested
  cases hcontested with
  | admitted hroom => rfl
  | rejected doorkeeper => rfl
  | won victim hfull hvictim hseen hfrequency => exact window_replace victim candidate

/-- What an access may do to the main area of `cache`, once the sketch and the doorkeeper are
those of `counted`: nothing; to add the last key of the window, if there is room; or else to let
that key take the place of the last key on probation, or of the last protected key if none is on
probation. -/
inductive MainChange (cache counted after : TinyLfu κ) : Prop
  | kept (hmain : ∀ other, other ∈ after.hotKeys ↔ other ∈ cache.hotKeys)
  | gained (candidate : κ) (hcandidate : cache.window.toList.getLast? = some candidate)
    (hnew : candidate ∉ cache.hotKeys) (hroom : cache.mainSize < cache.mainQuota)
    (hmain : ∀ other, other ∈ after.hotKeys ↔ other = candidate ∨ other ∈ cache.hotKeys)
  | traded (candidate victim : κ) (hcandidate : cache.window.toList.getLast? = some candidate)
    (hnew : candidate ∉ cache.hotKeys) (hfull : cache.mainSize = cache.mainQuota)
    (hvictim : cache.probation.toList.getLast?.or cache.guarded.toList.getLast? = some victim)
    (hseen : counted.doorkeeper.contains candidate = true)
    (hfrequency : counted.frequency victim ≤ counted.frequency candidate)
    (hmain : ∀ other, other ∈ after.hotKeys ↔
      other = candidate ∨ other ∈ cache.hotKeys ∧ other ≠ victim)

variable [LawfulBEq κ]

/-- A key that enters a full window pushes out its last key. -/
theorem Valid.enter_eq (h : cache.Valid) (hquota : 1 ≤ cache.windowQuota)
    (hnew : key ∉ cache.window.toList) :
    cache.window.length < cache.windowQuota ∧
        cache.enter key = { cache with window := cache.window.push .front key } ∨
      ∃ candidate, cache.windowQuota ≤ cache.window.length ∧
        cache.window.toList.getLast? = some candidate ∧
        cache.enter key = TinyLfu.contest
          { cache with window := (cache.window.push .front key).erase candidate } candidate := by
  have hwindow := h.segments.valid_window
  unfold TinyLfu.enter
  dsimp only
  split_ifs with hover
  · rw [hwindow.length_push .front hnew] at hover
    cases hlast : cache.window.toList.getLast? with
    | none =>
      rw [hwindow.length_eq, List.getLast?_eq_none_iff.1 hlast, List.length_nil] at hover
      omega
    | some candidate =>
      refine .inr ⟨candidate, Nat.le_of_lt_succ hover, rfl, ?_⟩
      have hback : (cache.window.push .front key).peek? .back = some candidate := by
        rw [(hwindow.push .front key).peek?_back, hwindow.toList_push_of_not_mem .front hnew]
        change (key :: cache.window.toList).getLast? = some candidate
        rw [List.getLast?_cons, hlast, Option.getD_some]
      rw [(hwindow.push .front key).pop_eq, hback]
  · rw [hwindow.length_push .front hnew] at hover
    exact .inl ⟨Nat.le_of_not_lt hover, rfl⟩

theorem Valid.mainChange_enter (h : cache.Valid) (hquota : 1 ≤ cache.windowQuota)
    (hnew : key ∉ cache.window.toList) : MainChange cache cache (cache.enter key) := by
  rcases h.enter_eq hquota hnew with ⟨-, heq⟩ | ⟨candidate, -, hlast, heq⟩
  · rw [heq]
    exact .kept fun other ↦ Iff.rfl
  · have hcandidate : candidate ∉ cache.hotKeys := by
      have hmem := List.mem_of_getLast? hlast
      rw [mem_hotKeys_iff, not_or]
      exact ⟨h.segments.window_guarded candidate hmem, h.segments.window_probation candidate hmem⟩
    have hcontested := contested_contest
      { cache with window := (cache.window.push .front key).erase candidate } candidate
    rw [← heq] at hcontested
    generalize cache.enter key = after at hcontested
    cases hcontested with
    | admitted hroom =>
      refine .gained candidate hlast hcandidate hroom ?_
      intro other
      simp only [mem_hotKeys_iff, h.segments.valid_probation.mem_push]
      tauto
    | rejected doorkeeper => exact .kept fun other ↦ Iff.rfl
    | won victim hfull hvictim hseen hfrequency =>
      have hsize : cache.mainSize = cache.mainQuota := le_antisymm h.segments.main_le hfull
      refine .traded candidate victim hlast hcandidate hsize (h.victim?_eq ▸ hvictim) hseen
        hfrequency ?_
      intro other
      exact mem_hotKeys_replace
        { cache with window := (cache.window.push .front key).erase candidate } victim candidate
        h.segments.valid_probation h.segments.valid_guarded h.segments.probation_guarded

theorem Valid.mem_window_enter (h : cache.Valid) (hquota : 1 ≤ cache.windowQuota)
    (hnew : key ∉ cache.window.toList) : key ∈ (cache.enter key).window.toList := by
  have hpushed : key ∈ (cache.window.push .front key).toList :=
    (h.segments.valid_window.mem_push .front).2 (.inl rfl)
  rcases h.enter_eq hquota hnew with ⟨-, heq⟩ | ⟨candidate, -, hlast, heq⟩
  · rw [heq]
    exact hpushed
  · have hne : key ≠ candidate := ne_of_mem_of_not_mem (List.mem_of_getLast? hlast) hnew |>.symm
    rw [heq, window_contest, (h.segments.valid_window.push .front key).mem_erase]
    exact ⟨hne, hpushed⟩

/-! ## Accesses -/

theorem Valid.mainChange_place (h : cache.Valid) (hquota : 1 ≤ cache.windowQuota) (key : κ) :
    MainChange cache cache (cache.place key) := by
  have hprobation := h.segments.valid_probation
  have hguarded := h.segments.valid_guarded
  rw [h.place_eq]
  split_ifs with hin hin' hin''
  · exact .kept fun other ↦ Iff.rfl
  · refine .kept fun other ↦ ?_
    simp only [mem_hotKeys_iff, hguarded.mem_touch]
  · refine .kept fun other ↦ ?_
    have hmem := hprobation.contains_iff.1 hin''
    rw [mem_hotKeys_promote { cache with probation := cache.probation.erase key } key
      (hprobation.erase key) hguarded, mem_hotKeys_iff, mem_hotKeys_iff, hprobation.mem_erase]
    by_cases heq : other = key
    · simp [heq, hmem]
    · simp [heq]
  · apply h.mainChange_enter hquota
    rwa [← h.segments.valid_window.contains_iff]

theorem Valid.mem_place (h : cache.Valid) (hquota : 1 ≤ cache.windowQuota) (key : κ) :
    key ∈ (cache.place key).window.toList ∨ key ∈ (cache.place key).hotKeys := by
  have hwindow := h.segments.valid_window
  have hprobation := h.segments.valid_probation
  have hguarded := h.segments.valid_guarded
  rw [h.place_eq]
  split_ifs with hin hin' hin''
  · exact .inl ((hwindow.mem_touch .front).2 (hwindow.contains_iff.1 hin))
  · right
    rw [mem_hotKeys_iff]
    exact .inl ((hguarded.mem_touch .front).2 (hguarded.contains_iff.1 hin'))
  · right
    apply (mem_hotKeys_promote { cache with probation := cache.probation.erase key } key
      (hprobation.erase key) hguarded).2
    exact .inl rfl
  · left
    apply h.mem_window_enter hquota
    rwa [← hwindow.contains_iff]

omit [LawfulBEq κ] in
theorem MainChange.of_count {counted after : TinyLfu κ}
    (h : MainChange (cache.count key) counted after) : MainChange cache counted after := by
  obtain ⟨sketch, doorkeeper, accesses, agings, heq⟩ := cache.count_eq key
  rw [heq] at h
  cases h with
  | kept hmain => exact .kept hmain
  | gained candidate hcandidate hnew hroom hmain =>
    exact .gained candidate hcandidate hnew hroom hmain
  | traded candidate victim hcandidate hnew hfull hvictim hseen hfrequency hmain =>
    exact .traded candidate victim hcandidate hnew hfull hvictim hseen hfrequency hmain

omit [HashMaterial κ] [LawfulBEq κ] in
theorem Valid.mem_hotKeys_of_last (h : cache.Valid) {victim : κ}
    (hvictim : cache.probation.toList.getLast?.or cache.guarded.toList.getLast? = some victim) :
    victim ∈ cache.hotKeys :=
  mem_hotKeys_iff.2 (h.mem_of_victim? (h.victim?_eq.trans hvictim)).symm

/-- A key leaves the main area only for another. -/
theorem MainChange.length_le {counted after : TinyLfu κ} (h : MainChange cache counted after)
    (hvalid : cache.Valid) : cache.hotKeys.length ≤ after.hotKeys.length := by
  have hnodup := hvalid.nodup_hotKeys
  cases h with
  | kept hmain =>
    apply (hnodup.subperm _).length_le
    intro other hother
    exact (hmain other).2 hother
  | gained candidate hcandidate hnew hroom hmain =>
    apply (hnodup.subperm _).length_le
    intro other hother
    exact (hmain other).2 (.inr hother)
  | traded candidate victim hcandidate hnew hfull hvictim hseen hfrequency hmain =>
    have hmem := hvalid.mem_hotKeys_of_last hvictim
    -- The new main area is at least as large as the old one with the two keys traded.
    have hcons : (candidate :: cache.hotKeys.erase victim).Nodup :=
      (hnodup.erase victim).cons fun hin ↦ hnew (List.mem_of_mem_erase hin)
    have hsub : (candidate :: cache.hotKeys.erase victim) ⊆ after.hotKeys := by
      intro other hother
      rw [List.mem_cons, hnodup.mem_erase_iff, and_comm] at hother
      exact (hmain other).2 hother
    calc
      _ = (candidate :: cache.hotKeys.erase victim).length := by
        rw [List.length_cons, List.length_erase_add_one hmem]
      _ ≤ _ := (hcons.subperm hsub).length_le

/-! ## Runs -/

/-- Reads and writes are served alike. -/
def serve : Service (TinyLfu κ) κ := fun cache call ↦ cache.access call.key

omit [LawfulBEq κ] in
theorem quotas_run (cache : TinyLfu κ) (calls : List (Call κ)) :
    (serve.run cache calls).quotas = cache.quotas := by
  apply serve.run_invariant (P := fun state ↦ state.quotas = cache.quotas) _ rfl
  intro state call hsame
  exact (quotas_access call.key).trans hsame

theorem Valid.run (h : cache.Valid) (calls : List (Call κ)) :
    (TinyLfu.serve.run cache calls).Valid := by
  apply TinyLfu.serve.run_invariant (P := Valid) _ h
  intro state call hstate
  exact hstate.access call.key

/-- What an access to `key` comes to for a separator with the quotas of `start`: the key is in one
segment, the segments are separate and keep to their quotas, and the main area has changed by at
most one key. -/
structure Admission (start cache : TinyLfu κ) (key : κ) (after : TinyLfu κ) : Prop where
  count_eq_one :
    (after.window.toList ++ after.probation.toList ++ after.guarded.toList).count key = 1
  window_le : after.window.length ≤ start.windowQuota
  guarded_le : after.guarded.length ≤ start.guardedQuota
  main_le : after.mainSize ≤ start.mainQuota
  window_probation : after.window.Apart after.probation
  window_guarded : after.window.Apart after.guarded
  probation_guarded : after.probation.Apart after.guarded
  main : MainChange cache (cache.count key) after

theorem Valid.admission (h : cache.Valid) (hquota : 1 ≤ cache.windowQuota) {start : TinyLfu κ}
    (hquotas : cache.quotas = start.quotas) (key : κ) :
    Admission start cache key (cache.access key).2 := by
  have hcapacity : cache.capacity ≠ 0 := by
    rw [h.capacity_eq]
    omega
  have hcounted := h.count key
  have hquota' : 1 ≤ (cache.count key).windowQuota :=
    hquota.trans_eq (congrArg (·.1) (quotas_count key)).symm
  have hafter := hcounted.place key
  have hsame := (quotas_place key).trans ((quotas_count key).trans hquotas)
  have hmem := hcounted.mem_place hquota' key
  have hmain := (hcounted.mainChange_place hquota' key).of_count
  rw [TinyLfu.access, if_neg hcapacity]
  dsimp only
  generalize (cache.count key).place key = after at hafter hsame hmem hmain
  simp only [quotas, Prod.mk.injEq] at hsame
  have hsegments := hafter.segments
  rw [hsame.1, hsame.2.1, hsame.2.2.1] at hsegments
  refine {
    count_eq_one := ?_
    window_le := hsegments.window_le
    guarded_le := hsegments.guarded_le
    main_le := hsegments.main_le
    window_probation := hsegments.window_probation
    window_guarded := hsegments.window_guarded
    probation_guarded := hsegments.probation_guarded
    main := hmain }
  apply List.count_eq_one_of_mem hsegments.nodup
  rw [mem_hotKeys_iff] at hmem
  rw [List.mem_append, List.mem_append]
  tauto

/-- Every access obeys the law of admission, and the number of hot keys never falls. -/
theorem admission_of_run {capacity : Nat} (hpos : 1 ≤ capacity) {tuning : TinyLfuTuning}
    {start : TinyLfu κ} (hstart : create capacity tuning = .ok start) (calls : List (Call κ)) :
    (∀ call, Admission start (serve.run start calls) call.key
      (serve (serve.run start calls) call).2) ∧
    ∀ more, (serve.run start calls).hotKeys.length ≤
      (serve.run start (calls ++ more)).hotKeys.length := by
  have hvalid := (valid_create hstart).1
  have hstep (calls : List (Call κ)) (call : Call κ) :
      Admission start (serve.run start calls) call.key
        (serve (serve.run start calls) call).2 := by
    have hquotas := start.quotas_run calls
    have hquota : 1 ≤ (serve.run start calls).windowQuota :=
      (windowQuota_pos_of_create hpos hstart).trans_eq (congrArg (·.1) hquotas).symm
    exact (hvalid.run calls).admission hquota hquotas call.key
  refine ⟨hstep calls, ?_⟩
  intro more
  induction more using List.reverseRecOn with
  | nil => rw [List.append_nil]
  | append_singleton more call ih =>
    rw [← List.append_assoc, Service.run_concat]
    apply ih.trans
    exact (hstep (calls ++ more) call).main.length_le (hvalid.run (calls ++ more))

theorem create_half :
    create (κ := UInt64) 3 ⟨0.5, 0.5, none, 0⟩ = .ok (ofQuotas 2 1 0 30 0) := by
  have hratio : Number.within 0 1 0.5 = true := by decide
  have hshare : windowShare 3 0.5 = 2 := by decide
  have hguarded : guardedShare 1 0.5 = 0 := by decide
  have hsizes : checkSizes 2 1 0 = .ok () := by rfl
  have hperiod : max (min (3 * sampleFactor) (Number.wordLimit - 1)) 1 = 30 := by decide
  simp only [create, checkRatio, hratio, hshare, if_true, bind, Except.bind, pure, Except.pure,
    reduceCtorEq, if_false, Option.getD_none, Nat.reduceSub, hguarded, hperiod, hsizes,
    Halt.ofRefusal, Halt.ofOverflow, Except.mapError]

/-- Key 1 is the third to come into a window with two places. -/
theorem admission_of_run_half :
    1 ≤ 3 ∧ create (κ := UInt64) 3 ⟨0.5, 0.5, none, 0⟩ = .ok (ofQuotas 2 1 0 30 0) ∧
      Admission (ofQuotas 2 1 0 30 0)
        (serve.run (ofQuotas 2 1 0 30 0) [.put (7 : UInt64), .get 8]) 1
        (serve (serve.run (ofQuotas 2 1 0 30 0) [.put (7 : UInt64), .get 8]) (.put 1)).2 := by
  have hpos : 1 ≤ 3 := by decide
  exact ⟨hpos, create_half, (admission_of_run hpos create_half [.put 7, .get 8]).1 (.put 1)⟩

end KeyHeat.TinyLfu

import KeyHeat.Proofs.Policy.TinyLfu.Admission

/-!
# The order of the hot keys of Window TinyLFU

Protected keys and keys on probation are two recency orders. An access brings its key to the front
of one of them, maybe in exchange for the last protected key, or else it decides over the last key
of the window. So a scan of keys that are not in the main area, none of which the doorkeeper has
seen when it leaves the window, cannot move a hot key out of its place.
-/

namespace KeyHeat.TinyLfu

variable {κ : Type} [BEq κ] [Hashable κ] {cache counted after : TinyLfu κ} {key : κ}

/-! ## The new orders -/

/-- The key that an access to `key` pushes out of the window: the last one, if `key` is in no
segment and the window is full. -/
def candidate? (cache : TinyLfu κ) (key : κ) : Option κ :=
  if cache.window.contains key || cache.isHot key then none
  else if cache.window.length < cache.windowQuota then none
  else cache.window.toList.getLast?

variable [HashMaterial κ]

/-- What an access to `key` makes of the orders of the main area of `cache`, once the sketch and
the doorkeeper are those of `counted`. -/
inductive Reordered (cache counted : TinyLfu κ) (key : κ) (after : TinyLfu κ) : Prop
  | refreshed (hmem : key ∈ cache.guarded.toList)
    (hguarded : after.guarded.toList = key :: cache.guarded.toList.erase key)
    (hprobation : after.probation.toList = cache.probation.toList)
  | unprotected (hmem : key ∈ cache.probation.toList) (hzero : cache.guardedQuota = 0)
    (hguarded : after.guarded.toList = cache.guarded.toList)
    (hprobation : after.probation.toList = key :: cache.probation.toList.erase key)
  | promoted (hmem : key ∈ cache.probation.toList)
    (hroom : cache.guarded.toList.length < cache.guardedQuota)
    (hguarded : after.guarded.toList = key :: cache.guarded.toList)
    (hprobation : after.probation.toList = cache.probation.toList.erase key)
  | exchanged (demoted : κ) (hmem : key ∈ cache.probation.toList) (hpos : 0 < cache.guardedQuota)
    (hfull : cache.guarded.toList.length = cache.guardedQuota)
    (hlast : cache.guarded.toList.getLast? = some demoted)
    (hguarded : after.guarded.toList = key :: cache.guarded.toList.dropLast)
    (hprobation : after.probation.toList = demoted :: cache.probation.toList.erase key)
  | kept (hnew : key ∉ cache.hotKeys) (hnone : cache.candidate? key = none)
    (hguarded : after.guarded.toList = cache.guarded.toList)
    (hprobation : after.probation.toList = cache.probation.toList)
  | admitted (candidate : κ) (hnew : key ∉ cache.hotKeys)
    (hcandidate : cache.candidate? key = some candidate)
    (hroom : cache.mainSize < cache.mainQuota)
    (hguarded : after.guarded.toList = cache.guarded.toList)
    (hprobation : after.probation.toList = candidate :: cache.probation.toList)
  | rejected (candidate : κ) (hnew : key ∉ cache.hotKeys)
    (hcandidate : cache.candidate? key = some candidate)
    (hfull : cache.mainSize = cache.mainQuota)
    (hrefused : ∀ victim, cache.victim? = some victim → counted.Refused candidate victim)
    (hguarded : after.guarded.toList = cache.guarded.toList)
    (hprobation : after.probation.toList = cache.probation.toList)
  | replaced (candidate victim : κ) (hnew : key ∉ cache.hotKeys)
    (hcandidate : cache.candidate? key = some candidate)
    (hfull : cache.mainSize = cache.mainQuota)
    (hvictim : cache.probation.toList.getLast?.or cache.guarded.toList.getLast? = some victim)
    (haccepted : ¬counted.Refused candidate victim)
    (hguarded : after.guarded.toList = cache.guarded.toList.erase victim)
    (hprobation : after.probation.toList = candidate :: cache.probation.toList.erase victim)

/-! ## Accesses to hot keys -/

variable [LawfulBEq κ]

theorem Valid.reordered_touch (h : cache.Valid) (hmem : key ∈ cache.guarded.toList) :
    Reordered cache counted key { cache with guarded := cache.guarded.touch .front key } :=
  .refreshed hmem (h.segments.valid_guarded.toList_touch .front hmem) rfl

/-- A key on probation goes up; if the last protected key makes room for it, it goes down. -/
theorem Valid.reordered_promote (h : cache.Valid) (hmem : key ∈ cache.probation.toList) :
    Reordered cache counted key
      (TinyLfu.promote { cache with probation := cache.probation.erase key } key) := by
  have hprobation := h.segments.valid_probation
  have hguarded := h.segments.valid_guarded
  obtain ⟨-, habsent, -⟩ := h.segments.erase_probation hmem
  unfold TinyLfu.promote
  dsimp only
  split_ifs with hzero hfull
  · refine .unprotected hmem hzero rfl ?_
    rw [(hprobation.erase key).toList_push_of_not_mem .front habsent.probation,
      hprobation.toList_erase]
    rfl
  · rw [hguarded.pop_eq, hguarded.peek?_back]
    cases hlast : cache.guarded.toList.getLast? with
    | none =>
      rw [hguarded.length_eq, List.getLast?_eq_none_iff.1 hlast, List.length_nil] at hfull
      omega
    | some demoted =>
      have hdemoted := List.mem_of_getLast? hlast
      have hout : demoted ∉ (cache.probation.erase key).toList := fun hin ↦
        h.segments.probation_guarded demoted (hprobation.mem_erase.1 hin).2 hdemoted
      have hnot : key ∉ (cache.guarded.erase demoted).toList := fun hin ↦
        habsent.guarded (hguarded.mem_erase.1 hin).2
      have hlength : cache.guarded.toList.length = cache.guardedQuota := by
        rw [← hguarded.length_eq]
        exact le_antisymm h.segments.guarded_le hfull
      refine .exchanged demoted hmem (Nat.pos_of_ne_zero hzero) hlength hlast ?_ ?_
      · dsimp only
        rw [(hguarded.erase demoted).toList_push_of_not_mem .front hnot, hguarded.toList_erase,
          erase_eq_dropLast hguarded.nodup_toList hlast]
        rfl
      · dsimp only
        rw [(hprobation.erase key).toList_push_of_not_mem .front hout, hprobation.toList_erase]
        rfl
  · rw [hguarded.length_eq, Nat.not_le] at hfull
    refine .promoted hmem hfull ?_ (hprobation.toList_erase key)
    exact hguarded.toList_push_of_not_mem .front habsent.guarded

/-! ## Other accesses -/

omit [HashMaterial κ] in
/-- The victim is deleted from the order that it is in; it is not in the other one. -/
theorem orders_replace (cache : TinyLfu κ) (victim : κ) {candidate : κ}
    (hprobation : cache.probation.Valid) (hguarded : cache.guarded.Valid)
    (hapart : cache.probation.Apart cache.guarded)
    (hcandidate : candidate ∉ cache.probation.toList) :
    (cache.replace victim candidate).guarded.toList = cache.guarded.toList.erase victim ∧
      (cache.replace victim candidate).probation.toList =
        candidate :: cache.probation.toList.erase victim := by
  rw [replace_eq _ _ _ hprobation]
  split_ifs with hin
  · have hmem := hprobation.contains_iff.1 hin
    have hout : candidate ∉ (cache.probation.erase victim).toList := fun hmem ↦
      hcandidate (hprobation.mem_erase.1 hmem).2
    refine ⟨(List.erase_of_not_mem (hapart victim hmem)).symm, ?_⟩
    dsimp only
    rw [(hprobation.erase victim).toList_push_of_not_mem .front hout, hprobation.toList_erase]
    rfl
  · have hnot : victim ∉ cache.probation.toList := fun hmem ↦ hin (hprobation.contains_iff.2 hmem)
    refine ⟨hguarded.toList_erase victim, ?_⟩
    dsimp only
    rw [hprobation.toList_push_of_not_mem .front hcandidate, List.erase_of_not_mem hnot]
    rfl

/-- A key that is in no segment moves no hot key, but the key that it pushes out of the window may
come into the main area. -/
theorem Valid.reordered_enter (h : cache.Valid) (hquota : 1 ≤ cache.windowQuota)
    (hwindow : key ∉ cache.window.toList) (hnew : key ∉ cache.hotKeys) :
    Reordered cache cache key (cache.enter key) := by
  have hin : (cache.window.contains key || cache.isHot key) = false := by
    rw [Bool.or_eq_false_iff, ← Bool.not_eq_true, ← Bool.not_eq_true,
      h.segments.valid_window.contains_iff, ← h.mem_hotKeys]
    exact ⟨hwindow, hnew⟩
  rcases h.enter_eq hquota hwindow with ⟨hroom, heq⟩ | ⟨candidate, hover, hlast, heq⟩
  · have hnone : cache.candidate? key = none := by
      simp [candidate?, hin, hroom]
    rw [heq]
    exact .kept hnew hnone rfl rfl
  · have hcandidate : cache.candidate? key = some candidate := by
      simp [candidate?, hin, Nat.not_lt.2 hover, hlast]
    have hmem := List.mem_of_getLast? hlast
    have hprobation := h.segments.window_probation candidate hmem
    rw [heq]
    -- Only the window differs from that of the cache, and the contest does not look at it.
    rcases contest_eq { cache with window := (cache.window.push .front key).erase candidate }
      candidate with ⟨hroom, hcontest⟩ | ⟨hfull, hrefused, doorkeeper, hcontest⟩ |
        ⟨victim, hfull, hvictim, haccepted, hcontest⟩
    · rw [hcontest]
      exact .admitted candidate hnew hcandidate hroom rfl
        (h.segments.valid_probation.toList_push_of_not_mem .front hprobation)
    · rw [hcontest]
      exact .rejected candidate hnew hcandidate (le_antisymm h.segments.main_le hfull) hrefused
        rfl rfl
    · rw [hcontest]
      obtain ⟨hguarded, hprobation⟩ := orders_replace
        { cache with window := (cache.window.push .front key).erase candidate } victim
        h.segments.valid_probation h.segments.valid_guarded h.segments.probation_guarded hprobation
      exact .replaced candidate victim hnew hcandidate (le_antisymm h.segments.main_le hfull)
        (h.victim?_eq ▸ hvictim) haccepted hguarded hprobation

theorem Valid.reordered_place (h : cache.Valid) (hquota : 1 ≤ cache.windowQuota) (key : κ) :
    Reordered cache cache key (cache.place key) := by
  have hsegments := h.segments
  rw [h.place_eq]
  split_ifs with hwindow hguarded hprobation
  · rw [hsegments.valid_window.contains_iff] at hwindow
    have hnew : key ∉ cache.hotKeys := by
      rw [mem_hotKeys_iff, not_or]
      exact ⟨hsegments.window_guarded key hwindow, hsegments.window_probation key hwindow⟩
    have hnone : cache.candidate? key = none := by
      simp [candidate?, hsegments.valid_window.contains_iff.2 hwindow]
    exact .kept hnew hnone rfl rfl
  · exact h.reordered_touch (hsegments.valid_guarded.contains_iff.1 hguarded)
  · exact h.reordered_promote (hsegments.valid_probation.contains_iff.1 hprobation)
  · rw [hsegments.valid_window.contains_iff] at hwindow
    have hnew : key ∉ cache.hotKeys := by
      rw [mem_hotKeys_iff, not_or, ← hsegments.valid_guarded.contains_iff,
        ← hsegments.valid_probation.contains_iff]
      exact ⟨hguarded, hprobation⟩
    exact h.reordered_enter hquota hwindow hnew

omit [LawfulBEq κ] in
/-- Counting an access moves no key. -/
theorem Reordered.of_count (h : Reordered (cache.count key) counted key after) :
    Reordered cache counted key after := by
  obtain ⟨sketch, doorkeeper, accesses, agings, heq⟩ := cache.count_eq key
  rw [heq] at h
  cases h with
  | refreshed hmem hguarded hprobation => exact .refreshed hmem hguarded hprobation
  | unprotected hmem hzero hguarded hprobation =>
    exact .unprotected hmem hzero hguarded hprobation
  | promoted hmem hroom hguarded hprobation => exact .promoted hmem hroom hguarded hprobation
  | exchanged demoted hmem hpos hfull hlast hguarded hprobation =>
    exact .exchanged demoted hmem hpos hfull hlast hguarded hprobation
  | kept hnew hnone hguarded hprobation => exact .kept hnew hnone hguarded hprobation
  | admitted candidate hnew hcandidate hroom hguarded hprobation =>
    exact .admitted candidate hnew hcandidate hroom hguarded hprobation
  | rejected candidate hnew hcandidate hfull hrefused hguarded hprobation =>
    exact .rejected candidate hnew hcandidate hfull hrefused hguarded hprobation
  | replaced candidate victim hnew hcandidate hfull hvictim haccepted hguarded hprobation =>
    exact .replaced candidate victim hnew hcandidate hfull hvictim haccepted hguarded hprobation

theorem Valid.reordered_access (h : cache.Valid) (hquota : 1 ≤ cache.windowQuota) (key : κ) :
    Reordered cache (cache.count key) key (cache.access key).2 := by
  have hcapacity : cache.capacity ≠ 0 := by
    rw [h.capacity_eq]
    omega
  have hquota' : 1 ≤ (cache.count key).windowQuota :=
    hquota.trans_eq (congrArg (·.1) (quotas_count key)).symm
  rw [TinyLfu.access, if_neg hcapacity]
  exact ((h.count key).reordered_place hquota' key).of_count

/-! ## Scans -/

omit [LawfulBEq κ] in
/-- Whenever one of the calls pushes a key out of the window and there is a victim for it, the
doorkeeper has not seen that key. -/
def Unseen (cache : TinyLfu κ) : List (Call κ) → Prop
  | [] => True
  | call :: calls =>
    (∀ candidate victim, cache.candidate? call.key = some candidate →
      cache.victim? = some victim →
        (cache.count call.key).doorkeeper.contains candidate = false) ∧
    Unseen (serve cache call).2 calls

/-- An access to a key that is not hot keeps a full main area as it is if the doorkeeper has not
seen the candidate. -/
theorem Valid.orders_of_unseen (h : cache.Valid) (hquota : 1 ≤ cache.windowQuota)
    (hfull : cache.mainSize = cache.mainQuota) (hnew : key ∉ cache.hotKeys)
    (hunseen : ∀ candidate victim, cache.candidate? key = some candidate →
      cache.victim? = some victim → (cache.count key).doorkeeper.contains candidate = false) :
    (cache.access key).2.guarded.toList = cache.guarded.toList ∧
      (cache.access key).2.probation.toList = cache.probation.toList := by
  rw [mem_hotKeys_iff, not_or] at hnew
  have hreordered := h.reordered_access hquota key
  generalize (cache.access key).2 = after at hreordered
  cases hreordered with
  | refreshed hmem => exact absurd hmem hnew.1
  | unprotected hmem => exact absurd hmem hnew.2
  | promoted hmem => exact absurd hmem hnew.2
  | exchanged _ hmem => exact absurd hmem hnew.2
  | kept _ _ hguarded hprobation => exact ⟨hguarded, hprobation⟩
  | admitted _ _ _ hroom => exact absurd hfull hroom.ne
  | rejected _ _ _ _ _ hguarded hprobation => exact ⟨hguarded, hprobation⟩
  | replaced candidate victim _ hcandidate _ hvictim haccepted =>
    exact absurd (.inl (hunseen candidate victim hcandidate (h.victim?_eq.trans hvictim)))
      haccepted

omit [HashMaterial κ] [LawfulBEq κ] in
theorem Valid.mainSize_eq (h : cache.Valid) : cache.mainSize = cache.hotKeys.length := by
  rw [mainSize, h.segments.valid_probation.length_eq, h.segments.valid_guarded.length_eq,
    hotKeys, List.length_append, Nat.add_comm]

/-- A scan of keys that the doorkeeper has not seen passes by a full main area. -/
theorem Valid.hotKeys_of_unseen (h : cache.Valid) (hquota : 1 ≤ cache.windowQuota)
    (hfull : cache.mainSize = cache.mainQuota) {scan : List (Call κ)}
    (hnew : ∀ call ∈ scan, call.key ∉ cache.hotKeys) (hunseen : cache.Unseen scan) :
    (serve.run cache scan).hotKeys = cache.hotKeys := by
  induction scan generalizing cache with
  | nil => rfl
  | cons call scan ih =>
    obtain ⟨hfirst, hrest⟩ := hunseen
    obtain ⟨hguarded, hprobation⟩ :=
      h.orders_of_unseen hquota hfull (hnew call List.mem_cons_self) hfirst
    -- The main area stays as it is, so all that is assumed of it holds for the rest of the scan.
    have hvalid : (serve cache call).2.Valid := h.access call.key
    have hquotas : (serve cache call).2.quotas = cache.quotas := quotas_access call.key
    simp only [quotas, Prod.mk.injEq] at hquotas
    have hkeys : (serve cache call).2.hotKeys = cache.hotKeys := by
      rw [hotKeys, hotKeys]
      exact congrArg₂ (· ++ ·) hguarded hprobation
    have hfull' : (serve cache call).2.mainSize = (serve cache call).2.mainQuota := by
      rw [hvalid.mainSize_eq, hkeys, ← h.mainSize_eq, hquotas.2.1, hfull]
    have hnew' : ∀ later ∈ scan, later.key ∉ (serve cache call).2.hotKeys := by
      intro later hlater
      rw [hkeys]
      exact hnew later (List.mem_cons_of_mem call hlater)
    calc
      _ = (serve.run (serve cache call).2 scan).hotKeys := rfl
      _ = (serve cache call).2.hotKeys := ih hvalid (hquotas.1 ▸ hquota) hfull' hnew' hrest
      _ = _ := hkeys

/-! ## Runs -/

/-- After any calls, protected keys come before those on probation; every access reorders them as
said; and a scan of unseen keys leaves them as they are. -/
theorem reordered_of_run {capacity : Nat} (hpos : 1 ≤ capacity) {tuning : TinyLfuTuning}
    {start : TinyLfu κ} (hstart : create capacity tuning = .ok start) (calls : List (Call κ))
    (hcache : cache = serve.run start calls) :
    cache.hotKeys = cache.guarded.toList ++ cache.probation.toList ∧
    (∀ call, Reordered cache (cache.count call.key) call.key (serve cache call).2) ∧
    ∀ scan, cache.mainSize = cache.mainQuota → (∀ call ∈ scan, call.key ∉ cache.hotKeys) →
      cache.Unseen scan → (serve.run start (calls ++ scan)).hotKeys = cache.hotKeys := by
  have hvalid : cache.Valid := hcache ▸ (valid_create hstart).1.run calls
  have hquotas : cache.quotas = start.quotas := hcache ▸ start.quotas_run calls
  have hquota : 1 ≤ cache.windowQuota :=
    (windowQuota_pos_of_create hpos hstart).trans_eq (congrArg (·.1) hquotas).symm
  refine ⟨rfl, fun call ↦ hvalid.reordered_access hquota call.key, ?_⟩
  intro scan hfull hnew hunseen
  rw [Service.run_append, ← hcache]
  exact hvalid.hotKeys_of_unseen hquota hfull hnew hunseen

omit [BEq κ] [Hashable κ] [LawfulBEq κ] in
/-- A filter of which no bit is set has seen nothing. -/
theorem contains_empty (expected : Nat) (rate : Float) (key : κ) :
    (Bloom.empty expected rate).contains key = false := by
  have hbit (size bit : Nat) : Bloom.testBit (Array.replicate size 0) bit = false := by
    have hword : (Array.replicate size (0 : UInt64)).getD (bit / 64) 0 = 0 := by
      rw [Array.getD_eq_getD_getElem?, Array.getElem?_replicate]
      split_ifs <;> rfl
    simp [Bloom.testBit, Bloom.locate, hword]
  have hcount : (Bloom.empty expected rate).hashCount ≠ 0 :=
    Nat.one_le_iff_ne_zero.1 (Nat.le_max_left 1 _)
  obtain ⟨count, hcount⟩ := Nat.exists_eq_succ_of_ne_zero hcount
  rw [Bloom.contains, Bloom.bits, hcount, Bloom.bitsFrom, List.all_cons, Bool.and_eq_false_iff]
  exact .inl (hbit _ _)

/-- A window with two places stands before a main area with one, which key 7 has taken after three
calls, whatever the sketch and the doorkeeper are. -/
def filled (sketch : PackedSketch) (doorkeeper : Bloom) : TinyLfu UInt64 :=
  serve.run ⟨.empty, .empty, .empty, 2, 1, 0, 3, sketch, doorkeeper, 30, 0, 0⟩
    [.put 7, .put 8, .put 9]

theorem filled_eq (sketch : PackedSketch) (doorkeeper : Bloom) :
    (filled sketch doorkeeper).mainSize = (filled sketch doorkeeper).mainQuota ∧
      (filled sketch doorkeeper).hotKeys = [7] ∧
      ((filled sketch doorkeeper).count 1).doorkeeper = doorkeeper :=
  ⟨by cbv, by cbv, by cbv⟩

/-- A read of key 1 pushes key 8 out of the window, but not key 7 out of the main area. -/
theorem reordered_of_run_half :
    1 ≤ 3 ∧ create (κ := UInt64) 3 ⟨0.5, 0.5, none, 0⟩ = .ok (ofQuotas 2 1 0 30 0) ∧
      ∃ cache, cache = serve.run (ofQuotas 2 1 0 30 0) [.put (7 : UInt64), .put 8, .put 9] ∧
        cache.mainSize = cache.mainQuota ∧ cache.Unseen [.get 1] ∧ cache.hotKeys = [7] ∧
        Reordered cache (cache.count 1) 1 (serve cache (.get 1)).2 ∧
        (serve.run (ofQuotas 2 1 0 30 0) [.put (7 : UInt64), .put 8, .put 9, .get 1]).hotKeys =
          cache.hotKeys := by
  obtain ⟨hfull, hhot, hdoorkeeper⟩ := filled_eq (.empty 3 0) (.empty 3 doorkeeperRate)
  have hunseen : (filled (.empty 3 0) (.empty 3 doorkeeperRate)).Unseen [.get 1] := by
    refine ⟨fun candidate _ _ _ ↦ ?_, trivial⟩
    rw [Call.key, hdoorkeeper]
    exact contains_empty 3 doorkeeperRate candidate
  have hnew : ∀ call ∈ [Call.get (1 : UInt64)],
      call.key ∉ (filled (.empty 3 0) (.empty 3 doorkeeperRate)).hotKeys := by
    rw [hhot]
    decide
  have hcache : filled (.empty 3 0) (.empty 3 doorkeeperRate) =
      serve.run (ofQuotas 2 1 0 30 0) [.put 7, .put 8, .put 9] := rfl
  obtain ⟨-, hstep, hscan⟩ := reordered_of_run (by decide) create_half _ hcache
  exact ⟨by decide, create_half, _, rfl, hfull, hunseen, hhot, hstep (.get 1),
    hscan [.get 1] hfull hnew hunseen⟩

end KeyHeat.TinyLfu

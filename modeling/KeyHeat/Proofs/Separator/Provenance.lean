import KeyHeat.Proofs.Policy.S3Fifo.Exclusion
import KeyHeat.Proofs.Policy.TinyLfu.Admission
import KeyHeat.Proofs.Separator.Session

/-!
# Where hot keys come from

A separator reports no key that it was not told of. Under every policy there are keys that are hot
or may become so without being accessed again; an access adds at most its own key to them, and time
adds none.
-/

namespace KeyHeat

variable {κ : Type} [BEq κ] [Hashable κ] [LawfulBEq κ] {key other : κ}

/-! ## One access -/

theorem Lru.Valid.mem_enroll {lru : Lru κ} (h : lru.Valid)
    (hmem : other ∈ (lru.enroll key).keys.toList) : other = key ∨ other ∈ lru.keys.toList := by
  rw [enroll_eq] at hmem
  unfold Lru.makeRoom at hmem
  split_ifs at hmem
  · rw [(h.keys.pop .back).mem_push, h.keys.toList_pop_back] at hmem
    exact hmem.imp_right List.mem_of_mem_dropLast
  · exact (h.keys.mem_push .front).1 hmem

theorem Lru.Valid.mem_put {lru : Lru κ} (h : lru.Valid)
    (hmem : other ∈ (lru.put key).2.keys.toList) : other = key ∨ other ∈ lru.keys.toList := by
  rw [h.put_eq] at hmem
  split_ifs at hmem
  · exact .inr hmem
  · exact .inr ((h.keys.mem_touch .front).1 hmem)
  · exact h.mem_enroll hmem

theorem Lru.Valid.mem_get {lru : Lru κ} (h : lru.Valid)
    (hmem : other ∈ (lru.get key).2.keys.toList) : other = key ∨ other ∈ lru.keys.toList := by
  rw [h.get_eq] at hmem
  split_ifs at hmem
  · exact .inr ((h.keys.mem_touch .front).1 hmem)
  · exact .inr hmem

/-- What is known of a key is replaced, or entered for the first time. -/
theorem mem_of_mem_insert {α : Type} {entries : Std.HashMap κ α} {entry : α}
    (hmem : other ∈ entries.insert key entry) : other = key ∨ other ∈ entries :=
  (Std.HashMap.mem_insert.1 hmem).imp_left fun heq ↦ (beq_iff_eq.1 heq).symm

theorem Lfu.mem_makeRoom {lfu : Lfu κ} (hmem : other ∈ lfu.makeRoom.frequencies) :
    other ∈ lfu.frequencies := by
  unfold makeRoom evict at hmem
  split_ifs at hmem
  · cases hvictim : lfu.victim? with
    | none =>
      rw [hvictim] at hmem
      exact hmem
    | some victim =>
      rw [hvictim] at hmem
      exact Std.HashMap.mem_of_mem_erase hmem
  · exact hmem

theorem Lfu.Valid.mem_put {lfu : Lfu κ} (h : lfu.Valid)
    (hmem : other ∈ (lfu.put key).2.frequencies) : other = key ∨ other ∈ lfu.frequencies := by
  rw [h.put_eq] at hmem
  split_ifs at hmem
  · exact .inr hmem
  · cases hknown : lfu.frequency? key with
    | none =>
      simp only [hknown, enroll_eq] at hmem
      exact (mem_of_mem_insert hmem).imp_right mem_makeRoom
    | some frequency =>
      simp only [hknown] at hmem
      exact mem_of_mem_insert hmem

theorem Lfu.Valid.mem_get {lfu : Lfu κ} (h : lfu.Valid)
    (hmem : other ∈ (lfu.get key).2.frequencies) : other = key ∨ other ∈ lfu.frequencies := by
  rw [h.get_eq] at hmem
  cases hknown : lfu.frequency? key with
  | none =>
    simp only [hknown] at hmem
    exact .inr hmem
  | some frequency =>
    simp only [hknown] at hmem
    exact mem_of_mem_insert hmem

theorem LruK.mem_makeRoom {lruK : LruK κ} (hmem : other ∈ lruK.makeRoom.counts) :
    other ∈ lruK.counts := by
  unfold makeRoom evict at hmem
  dsimp only at hmem
  split_ifs at hmem
  · split at hmem
    · exact Std.HashMap.mem_of_mem_erase hmem
    · split at hmem
      · exact Std.HashMap.mem_of_mem_erase hmem
      · exact hmem
  · exact hmem

theorem LruK.mem_put {lruK : LruK κ} (hmem : other ∈ (lruK.put key).2.counts) :
    other = key ∨ other ∈ lruK.counts := by
  unfold LruK.put at hmem
  split_ifs at hmem
  · exact .inr hmem
  · cases hknown : lruK.accessCount? key with
    | none =>
      simp only [hknown, counts_enroll] at hmem
      exact (mem_of_mem_insert hmem).imp_right mem_makeRoom
    | some count =>
      simp only [hknown, counts_touch] at hmem
      exact mem_of_mem_insert hmem

theorem LruK.mem_get {lruK : LruK κ} (hmem : other ∈ (lruK.get key).2.counts) :
    other = key ∨ other ∈ lruK.counts := by
  unfold LruK.get at hmem
  cases hknown : lruK.accessCount? key with
  | none =>
    simp only [hknown] at hmem
    exact .inr hmem
  | some count =>
    simp only [hknown, counts_touch] at hmem
    exact mem_of_mem_insert hmem

theorem SlidingWindow.Valid.mem_record {window : SlidingWindow κ} {now : Nat} (h : window.Valid now)
    (hmem : other ∈ (window.record now key).accesses.toList.map (·.2)) :
    other = key ∨ other ∈ window.accesses.toList.map (·.2) := by
  rw [accesses_record, h.accesses_expire, List.map_append, List.mem_append] at hmem
  rcases hmem with hmem | hmem
  · obtain ⟨access, haccess, rfl⟩ := List.mem_map.1 hmem
    exact .inr (List.mem_map_of_mem ((List.dropWhile_sublist _).subset haccess))
  · exact .inl (List.mem_singleton.1 hmem)

theorem TopK.mem_access {topK : TopK κ} (hmem : other ∈ (topK.access key).2.members.scores) :
    other = key ∨ other ∈ topK.members.scores := by
  unfold TopK.access at hmem
  split_ifs at hmem
  · exact .inr hmem
  · obtain ⟨score, hscore⟩ := mem_iff_exists_getElem?.1 hmem
    rcases (topK.ranked_record key).score_cases hscore with ⟨heq, -⟩ | ⟨hold, -⟩
    · exact .inl heq
    · exact .inr (mem_of_getElem? hold)

omit [LawfulBEq κ] in
/-- No key comes to be hot but the one that is accessed. -/
theorem Lirs.mem_of_mem_hotAfter {lirs : Lirs κ} (hmem : other ∈ lirs.hotAfter key) :
    other = key ∨ other ∈ lirs.hotKeys := by
  have hexchange (hmem : other ∈ exchange lirs.lirQuota key lirs.hotKeys) :
      other = key ∨ other ∈ lirs.hotKeys := by
    unfold exchange at hmem
    split_ifs at hmem
    · cases hmem
    · exact (List.mem_cons.1 hmem).imp_right List.mem_of_mem_dropLast
  unfold hotAfter at hmem
  split at hmem
  · split_ifs at hmem
    · exact List.mem_cons.1 hmem
    · exact .inr hmem
  · exact (List.mem_cons.1 hmem).imp_right List.mem_of_mem_erase
  · split_ifs at hmem
    · exact hexchange hmem
    · exact .inr hmem
  · exact hexchange hmem

theorem Lirs.Valid.mem_put {lirs : Lirs κ} (h : lirs.Valid)
    (hmem : other ∈ (lirs.put key).2.hotKeys) : other = key ∨ other ∈ lirs.hotKeys := by
  rcases Nat.eq_zero_or_pos lirs.capacity with hzero | hpos
  · rw [put_of_capacity_eq_zero hzero] at hmem
    exact .inr hmem
  · rw [(h.put_serves hpos key).2.hotKeys_eq] at hmem
    exact mem_of_mem_hotAfter hmem

theorem Lirs.Valid.mem_get {lirs : Lirs κ} (h : lirs.Valid)
    (hmem : other ∈ (lirs.get key).2.hotKeys) : other = key ∨ other ∈ lirs.hotKeys := by
  by_cases hnone : lirs.status? key = none
  · rw [get_of_index_eq_none (h.arranged.wired.status?_eq_none.1 hnone)] at hmem
    exact .inr hmem
  · rw [(h.get_serves hnone).2.hotKeys_eq] at hmem
    exact mem_of_mem_hotAfter hmem

section Material

variable [HashMaterial κ]

theorem SketchWindow.Valid.mem_access {sketch : SketchWindow κ} (h : sketch.Valid)
    (hmem : other ∈ (sketch.access key).2.window.toList) :
    other = key ∨ other ∈ sketch.window.toList := by
  unfold SketchWindow.access at hmem
  split_ifs at hmem
  · exact .inr hmem
  · rw [record_window] at hmem
    split_ifs at hmem
    · rw [(h.window.push .front key).toList_trim] at hmem
      exact (h.window.mem_push .front).1 (List.mem_of_mem_take hmem)
    · exact (h.window.mem_push .front).1 hmem

/-- The keys of all segments. -/
def TinyLfu.resident (cache : TinyLfu κ) : Set κ :=
  {key | key ∈ cache.window.toList ∨ key ∈ cache.hotKeys}

theorem TinyLfu.mem_resident_contest (cache : TinyLfu κ) (candidate : κ)
    (hprobation : cache.probation.Valid) (hguarded : cache.guarded.Valid)
    (hapart : cache.probation.Apart cache.guarded)
    (hmem : other ∈ (cache.contest candidate).resident) :
    other = candidate ∨ other ∈ cache.resident := by
  have hcontested := cache.contested_contest candidate
  generalize cache.contest candidate = after at hcontested hmem
  cases hcontested with
  | admitted hroom =>
    rcases hmem with hwindow | hhot
    · exact .inr (.inl hwindow)
    · rw [mem_hotKeys_iff] at hhot
      rcases hhot with hin | hin
      · exact .inr (.inr (mem_hotKeys_iff.2 (.inl hin)))
      · exact ((hprobation.mem_push .front).1 hin).imp_right fun hold ↦
          .inr (mem_hotKeys_iff.2 (.inr hold))
  | rejected doorkeeper => exact .inr hmem
  | won victim hfull hvictim hseen hfrequency =>
    rcases hmem with hwindow | hhot
    · rw [window_replace] at hwindow
      exact .inr (.inl hwindow)
    · rw [mem_hotKeys_replace cache victim candidate hprobation hguarded hapart] at hhot
      exact hhot.imp_right fun hold ↦ .inr hold.1

theorem TinyLfu.Valid.mem_resident_enter {cache : TinyLfu κ} (h : cache.Valid)
    (hmem : other ∈ (cache.enter key).resident) : other = key ∨ other ∈ cache.resident := by
  have hpush := h.segments.valid_window.push .front key
  have hpushed {known : κ} (hin : known ∈ (cache.window.push .front key).toList) :
      known = key ∨ known ∈ cache.resident :=
    ((h.segments.valid_window.mem_push .front).1 hin).imp_right .inl
  have hkept (hmem : other ∈ resident { cache with window := cache.window.push .front key }) :
      other = key ∨ other ∈ cache.resident := by
    rcases hmem with hin | hhot
    · exact hpushed hin
    · exact .inr (.inr hhot)
  unfold TinyLfu.enter at hmem
  dsimp only at hmem
  rw [hpush.pop_eq, hpush.peek?_back] at hmem
  split_ifs at hmem
  · cases hlast : (cache.window.push .front key).toList.getLast? with
    | none =>
      rw [hlast] at hmem
      exact hkept hmem
    | some candidate =>
      rw [hlast] at hmem
      have hcontest := mem_resident_contest
        { cache with window := (cache.window.push .front key).erase candidate } candidate
        h.segments.valid_probation h.segments.valid_guarded h.segments.probation_guarded hmem
      -- The candidate was in the window after the push: it is the new key or an old one.
      rcases hcontest with rfl | hin | hhot
      · exact hpushed (List.mem_of_getLast? hlast)
      · exact hpushed (hpush.mem_erase.1 hin).2
      · exact .inr (.inr hhot)
  · exact hkept hmem

omit [HashMaterial κ] [LawfulBEq κ] in
theorem TinyLfu.window_promote (cache : TinyLfu κ) (key : κ) :
    (cache.promote key).window = cache.window := by
  unfold promote
  split_ifs
  · rfl
  · split <;> rfl
  · rfl

theorem TinyLfu.Valid.mem_resident_place {cache : TinyLfu κ} (h : cache.Valid)
    (hmem : other ∈ (cache.place key).resident) : other = key ∨ other ∈ cache.resident := by
  have hprobation := h.segments.valid_probation
  have hguarded := h.segments.valid_guarded
  rw [h.place_eq] at hmem
  split_ifs at hmem
  · rcases hmem with hwindow | hhot
    · exact .inr (.inl ((h.segments.valid_window.mem_touch .front).1 hwindow))
    · exact .inr (.inr hhot)
  · rcases hmem with hwindow | hhot
    · exact .inr (.inl hwindow)
    · simp only [mem_hotKeys_iff, hguarded.mem_touch] at hhot
      exact .inr (.inr (mem_hotKeys_iff.2 hhot))
  · rcases hmem with hwindow | hhot
    · rw [window_promote] at hwindow
      exact .inr (.inl hwindow)
    · rw [mem_hotKeys_promote { cache with probation := cache.probation.erase key } key
        (hprobation.erase key) hguarded, mem_hotKeys_iff, hprobation.mem_erase] at hhot
      exact hhot.imp_right fun hold ↦ .inr (mem_hotKeys_iff.2 (hold.imp_right And.right))
  · exact h.mem_resident_enter hmem

theorem TinyLfu.Valid.mem_resident_access {cache : TinyLfu κ} (h : cache.Valid)
    (hmem : other ∈ (cache.access key).2.resident) : other = key ∨ other ∈ cache.resident := by
  have hcounted : (cache.count key).resident = cache.resident := by
    obtain ⟨sketch, doorkeeper, accesses, agings, heq⟩ := cache.count_eq key
    rw [heq]
    rfl
  unfold TinyLfu.access at hmem
  split_ifs at hmem
  · exact .inr hmem
  · rw [← hcounted]
    exact (h.count key).mem_resident_place hmem

theorem S3Fifo.Valid.mem_put {fifo : S3Fifo κ} (h : fifo.Valid)
    (hmem : other ∈ (fifo.put key).2.tracked) : other = key ∨ other ∈ fifo.tracked := by
  by_cases hknown : key ∈ fifo.tracked
  · rw [(samePlaces_put_of_tracked hknown).tracked_eq] at hmem
    exact .inr hmem
  · obtain ⟨gone, -, htracked⟩ := h.tracked_put hknown
    rw [htracked] at hmem
    exact hmem.1

end Material

/-! ## Any policy -/

namespace Separator

/-- The keys that a separator may report without being told of them again. -/
def held : Separator κ → Set κ
  | lru state => {key | key ∈ state.keys.toList}
  | lfu state => {key | key ∈ state.frequencies}
  | lruK state => {key | key ∈ state.counts}
  | window state => {key | key ∈ state.accesses.toList.map (·.2)}
  | sketchWindow state => {key | key ∈ state.window.toList}
  | wTinyLfu state => state.resident
  | lirs state => {key | key ∈ state.hotKeys}
  | s3Fifo state => state.tracked
  | heapTopK state => {key | key ∈ state.members.scores}
  | unimplemented _ => ∅

variable {spec : Spec} {separator : Separator κ} {now : Nat}

omit [LawfulBEq κ] in
/-- A new separator has nothing to report. -/
theorem not_mem_held_of_build (hbuild : build spec = .ok separator) (key : κ) :
    key ∉ separator.held := by
  cases spec with
  | lru capacity =>
    cases hbuild
    exact List.not_mem_nil
  | lfu capacity minFrequency =>
    cases hbuild
    exact Std.HashMap.not_mem_empty
  | lruK k capacity =>
    obtain ⟨state, hstate, rfl⟩ := exists_of_map_eq_ok hbuild
    replace hstate := Halt.ofRefusal_eq_ok.1 hstate
    unfold LruK.create at hstate
    split_ifs at hstate
    cases hstate
    exact Std.HashMap.not_mem_empty
  | window span threshold =>
    obtain ⟨state, hstate, rfl⟩ := exists_of_map_eq_ok hbuild
    replace hstate := Halt.ofRefusal_eq_ok.1 hstate
    unfold SlidingWindow.create at hstate
    split_ifs at hstate
    cases hstate
    exact List.not_mem_nil
  | sketchWindow windowSize epsilon delta threshold bounded =>
    obtain ⟨state, hstate, rfl⟩ := exists_of_map_eq_ok hbuild
    replace hstate := Halt.ofRefusal_eq_ok.1 hstate
    obtain ⟨hfresh, -⟩ := SketchWindow.fresh_create hstate
    intro hmem
    change key ∈ state.window.toList at hmem
    rw [hfresh.window_eq] at hmem
    exact List.not_mem_nil hmem
  | wTinyLfu capacity tuning =>
    obtain ⟨state, hstate, rfl⟩ := exists_of_map_eq_ok hbuild
    obtain ⟨guardedQuota, samplePeriod, rfl⟩ := TinyLfu.create_eq hstate
    rintro (hmem | hmem)
    · exact List.not_mem_nil hmem
    · exact List.not_mem_nil hmem
  | lirs capacity lirRatio maxNonResident =>
    obtain ⟨state, hstate, rfl⟩ := exists_of_map_eq_ok hbuild
    replace hstate := Halt.ofRefusal_eq_ok.1 hstate
    obtain rfl := Lirs.create_eq hstate
    exact List.not_mem_nil
  | s3Fifo capacity smallRatio ghostRatio =>
    obtain ⟨state, hstate, rfl⟩ := exists_of_map_eq_ok hbuild
    obtain ⟨-, rfl⟩ := S3Fifo.create_eq hstate
    exact Std.HashMap.not_mem_empty
  | heapTopK k threshold =>
    cases hbuild
    exact Std.HashMap.not_mem_empty
  | unimplemented policy =>
    cases hbuild
    exact Set.notMem_empty key

variable [HashMaterial κ]

theorem Meets.mem_held_put (h : Meets now spec separator)
    (hmem : other ∈ (separator.put now key).2.held) : other = key ∨ other ∈ separator.held := by
  cases h with
  | lru hvalid _ => exact hvalid.mem_put hmem
  | lfu hvalid _ => exact hvalid.mem_put hmem
  | lruK hvalid _ => exact LruK.mem_put hmem
  | window hvalid => exact hvalid.mem_record hmem
  | sketchWindow hvalid _ => exact hvalid.mem_access hmem
  | wTinyLfu hvalid _ => exact hvalid.mem_resident_access hmem
  | lirs hvalid _ => exact hvalid.mem_put hmem
  | s3Fifo hvalid _ => exact hvalid.mem_put hmem
  | heapTopK hvalid _ => exact TopK.mem_access hmem
  | unimplemented => exact .inr hmem

theorem Meets.mem_held_get (h : Meets now spec separator)
    (hmem : other ∈ (separator.get now key).2.held) : other = key ∨ other ∈ separator.held := by
  cases h with
  | lru hvalid _ => exact hvalid.mem_get hmem
  | lfu hvalid _ => exact hvalid.mem_get hmem
  | lruK hvalid _ => exact LruK.mem_get hmem
  | window hvalid => exact hvalid.mem_record hmem
  | sketchWindow hvalid _ => exact hvalid.mem_access hmem
  | wTinyLfu hvalid _ => exact hvalid.mem_resident_access hmem
  | lirs hvalid _ => exact hvalid.mem_get hmem
  | @s3Fifo state _ _ _ _ _ =>
    have hsame : (state.get key).2.tracked = state.tracked := (state.samePlaces_get key).tracked_eq
    exact .inr (hsame.subset hmem)
  | heapTopK hvalid _ => exact TopK.mem_access hmem
  | unimplemented => exact .inr hmem

theorem Meets.mem_held_of_hot [Ord κ] (h : Meets now spec separator) {later : Nat}
    (hmem : key ∈ separator.hotKeys later) : key ∈ separator.held := by
  cases h with
  | lru hvalid _ => exact hmem
  | lfu hvalid _ => exact Std.HashMap.mem_keys.1 (hvalid.perm_hotKeys.mem_iff.1 hmem)
  | lruK hvalid _ =>
    obtain ⟨count, hcount, -⟩ := (hvalid.queued.mem_cache key).1 hmem
    exact mem_of_getElem? hcount
  | window hvalid =>
    rw [hotKeys, hvalid.hotKeys_eq] at hmem
    have hrecent := (SlidingWindow.mem_distinct.1 (List.mem_of_mem_filter hmem)).1
    obtain ⟨access, haccess, rfl⟩ := List.mem_map.1 hrecent
    rw [List.mem_reverse] at haccess
    exact List.mem_map_of_mem ((List.dropWhile_sublist _).subset haccess)
  | sketchWindow hvalid _ => exact List.mem_of_mem_filter hmem
  | wTinyLfu hvalid _ => exact .inr hmem
  | lirs hvalid _ => exact hmem
  | s3Fifo hvalid _ =>
    exact (hvalid.queues.mem_iff key).2 (.inr (List.mem_of_mem_filter hmem))
  | heapTopK hvalid _ => exact Std.HashMap.mem_keys.1 ((TopK.perm_hotKeys _).mem_iff.1 hmem)
  | unimplemented => cases hmem

end Separator

/-! ## Sessions -/

omit [BEq κ] [Hashable κ] [LawfulBEq κ] in
/-- The key of an event, if it is an access. -/
def Event.key? : Event κ → Option κ
  | .put key => some key
  | .get key => some key
  | .wait _ => none

namespace Session

variable [HashMaterial κ] {spec : Spec}

theorem Meets.mem_held_step {session : Session κ} (h : session.Meets spec) {event : Event κ}
    (hmem : key ∈ (session.step event).separator.held) :
    event.key? = some key ∨ key ∈ session.separator.held := by
  cases event with
  | put accessed =>
    exact (Separator.Meets.mem_held_put h hmem).imp_left fun heq ↦ congrArg some heq.symm
  | get accessed =>
    exact (Separator.Meets.mem_held_get h hmem).imp_left fun heq ↦ congrArg some heq.symm
  | wait time => exact .inr hmem

theorem Meets.mem_held_run {session : Session κ} (h : session.Meets spec) {events : List (Event κ)}
    (hmem : key ∈ (session.run events).separator.held) :
    key ∈ events.filterMap Event.key? ∨ key ∈ session.separator.held := by
  induction events generalizing session with
  | nil => exact .inr hmem
  | cons event events ih =>
    rw [List.mem_filterMap]
    rcases ih (h.step event) hmem with hlater | hheld
    · obtain ⟨later, hin, hkey⟩ := List.mem_filterMap.1 hlater
      exact .inl ⟨later, List.mem_cons_of_mem event hin, hkey⟩
    · exact (h.mem_held_step hheld).imp_left fun hkey ↦ ⟨event, List.mem_cons_self, hkey⟩

/-- Every key that a separator reports is that of an access that it was told of. -/
theorem told_of_hot [Ord κ] {start : Separator κ} (hbuild : Separator.build spec = .ok start)
    (now : Nat) (events : List (Event κ)) {later : Nat}
    (hmem : key ∈ (run ⟨start, now⟩ events).separator.hotKeys later) :
    key ∈ events.filterMap Event.key? := by
  have hstart : (⟨start, now⟩ : Session κ).Meets spec := Separator.meets_of_build hbuild now
  have hheld := Separator.Meets.mem_held_of_hot (hstart.run events) hmem
  exact (hstart.mem_held_run hheld).resolve_right (Separator.not_mem_held_of_build hbuild key)

end Session

end KeyHeat

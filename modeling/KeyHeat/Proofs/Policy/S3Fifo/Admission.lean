import KeyHeat.Proofs.Policy.S3Fifo.Sweep

/-!
# New keys of the three-queue policy

A key whose fingerprint is remembered goes to the tail of the main queue. If that queue is full, a
sweep follows, and it evicts the new key itself when every other key has an access to its credit.
Any other new key goes to the head of the small queue and stays there, unless that queue has no
room at all: then the key is its own successor and is dropped at once.
-/

namespace KeyHeat.S3Fifo

variable {κ : Type} [BEq κ] [Hashable κ] {fifo : S3Fifo κ}

/-! ## The main queue -/

theorem Valid.not_mem_queues (h : fifo.Valid) {key : κ} (hnew : key ∉ fifo.entries) :
    key ∉ fifo.small.toList ∧ key ∉ fifo.main.toList := by
  rwa [h.queues.mem_iff, not_or] at hnew

section Main

variable [LawfulBEq κ]

theorem Queues.indexed (h : Queues fifo.entries fifo.small fifo.main) : fifo.Indexed :=
  fun _ hmem ↦ h.entry_of_mem (.inr hmem)

theorem toList_pushMain (hmain : fifo.main.Valid) {key : κ} (hnot : key ∉ fifo.main.toList) :
    (fifo.pushMain key).main.toList = fifo.main.toList ++ [key] :=
  hmain.toList_push_of_not_mem .back hnot

/-- There is room for one more key in the main queue. -/
def MainHasRoom (fifo : S3Fifo κ) : Prop := fifo.main.length < fifo.mainQuota

theorem enterMain_of_room (hmain : fifo.main.Valid) {key : κ} (hnot : key ∉ fifo.main.toList)
    (hroom : fifo.MainHasRoom) : fifo.enterMain key = fifo.pushMain key := by
  have hlength : (fifo.pushMain key).main.length = fifo.main.length + 1 :=
    hmain.length_push .back hnot
  rw [enterMain_eq, if_neg]
  rw [hlength]
  exact Nat.not_lt.2 hroom

theorem enterMain_of_full (hmain : fifo.main.Valid) {key : κ} (hnot : key ∉ fifo.main.toList)
    (hfull : ¬fifo.MainHasRoom) : fifo.enterMain key = (fifo.pushMain key).evictFromMain := by
  have hlength : (fifo.pushMain key).main.length = fifo.main.length + 1 :=
    hmain.length_push .back hnot
  rw [enterMain_eq, if_pos]
  rw [hlength]
  exact Nat.lt_succ_of_le (Nat.le_of_not_lt hfull)

/-- A key that enters a full main queue sets off a sweep over the queue with the key at its
tail. -/
theorem swept_enterMain {key : κ}
    (hqueues : Queues (fifo.pushMain key).entries (fifo.pushMain key).small
      (fifo.pushMain key).main)
    (hmain : fifo.main.Valid) (hnot : key ∉ fifo.main.toList) (hfull : ¬fifo.MainHasRoom)
    {before : List κ} {victim : κ} {after : List κ}
    (hlist : fifo.main.toList ++ [key] = before ++ victim :: after)
    (hleast : FirstLeast (creditAt fifo.entries) before victim after) :
    Swept (fifo.pushMain key) (fifo.enterMain key) before victim after
      (creditAt fifo.entries victim) := by
  rw [enterMain_of_full hmain hnot hfull]
  rw [← toList_pushMain hmain hnot] at hlist
  exact swept_evictFromMain hqueues.valid_main hqueues.indexed hlist hleast

theorem entry_enterMain_of_not_mem {key other : κ}
    (hqueues : Queues (fifo.pushMain key).entries (fifo.pushMain key).small
      (fifo.pushMain key).main)
    (hmain : fifo.main.Valid) (hnot : key ∉ fifo.main.toList)
    (hother : other ∉ fifo.main.toList ++ [key]) :
    (fifo.enterMain key).entries[other]? = fifo.entries[other]? := by
  by_cases hroom : fifo.MainHasRoom
  · rw [enterMain_of_room hmain hnot hroom]
    rfl
  · have hne : fifo.main.toList ++ [key] ≠ [] := by simp
    obtain ⟨before, victim, after, hlist, hleast⟩ :=
      exists_firstLeast (creditAt fifo.entries) hne
    rw [hlist] at hother
    exact (swept_enterMain hqueues hmain hnot hroom hlist hleast).entry_rest other hother

end Main

variable [LawfulBEq κ] [HashMaterial κ] {key : κ}

/-! ## A remembered key -/

omit [LawfulBEq κ] in
theorem enroll_of_ghost (hghost : fifo.ghosts.contains (fingerprint key) = true) :
    fifo.enroll key = (fifo.restore key).enterMain key := by
  rw [enroll_eq, if_pos hghost]

theorem entry_restore (fifo : S3Fifo κ) (key : κ) :
    (fifo.restore key).entries[key]? = some ⟨0, fifo.tick⟩ :=
  Std.HashMap.getElem?_insert_self

theorem entry_restore_of_ne (fifo : S3Fifo κ) {other : κ} (hne : other ≠ key) :
    (fifo.restore key).entries[other]? = fifo.entries[other]? :=
  getElem?_insert_of_ne _ _ hne

theorem creditAt_restore (fifo : S3Fifo κ) (key : κ) :
    creditAt (fifo.restore key).entries key = 0 := by
  have hentry := entry_restore fifo key
  rw [creditAt, hentry]
  rfl

omit [LawfulBEq κ] [HashMaterial κ] in
theorem creditAt_eq_zero_iff {entry : S3FifoEntry} (hentry : fifo.entries[key]? = some entry) :
    creditAt fifo.entries key = 0 ↔ fifo.frequency? key = some 0 := by
  rw [frequency?_eq, hentry]
  rw [creditAt, hentry, Option.elim_some, Option.map_some, Option.some_inj, ← UInt8.toNat_inj]
  rfl

/-- Some key of the main queue has no access to its credit. -/
def MainHasIdle (fifo : S3Fifo κ) : Prop :=
  ∃ other ∈ fifo.main.toList, fifo.frequency? other = some 0

theorem Valid.queues_restore (h : fifo.Valid) (hnew : key ∉ fifo.entries) :
    Queues ((fifo.restore key).pushMain key).entries ((fifo.restore key).pushMain key).small
      ((fifo.restore key).pushMain key).main := by
  have hzero : (0 : UInt8) ≤ frequencyMax := by decide
  exact h.queues.enter_main hnew hzero

/-- The sweep that a remembered key sets off passes over keys with accesses to their credit only
and evicts a key that has none, if the full main queue holds one. -/
theorem Valid.swept_enroll_of_idle (h : fifo.Valid) (hnew : key ∉ fifo.entries)
    (hghost : fifo.ghosts.contains (fingerprint key) = true) (hfull : ¬fifo.MainHasRoom)
    (hidle : fifo.MainHasIdle) :
    ∃ before victim after, fifo.main.toList = before ++ victim :: after ∧
      Swept ((fifo.restore key).pushMain key) (fifo.enroll key) before victim (after ++ [key])
        0 := by
  have hnot := (h.not_mem_queues hnew).2
  obtain ⟨other, hother, hzero⟩ := hidle
  have hne : other ≠ key := fun heq ↦ hnot (heq ▸ hother)
  obtain ⟨entry, hentry⟩ := h.queues.indexed other hother
  have hcredit : creditAt (fifo.restore key).entries other = 0 := by
    rw [creditAt_congr (entry_restore_of_ne fifo hne)]
    exact (creditAt_eq_zero_iff hentry).2 hzero
  obtain ⟨before, victim, after, hsplit, hleast⟩ :=
    exists_firstLeast (creditAt (fifo.restore key).entries) (List.ne_nil_of_mem hother)
  have hvictim : creditAt (fifo.restore key).entries victim = 0 := by
    rw [hsplit, List.mem_append, List.mem_cons] at hother
    rcases hother with hother | rfl | hother
    · have hlt := hleast.before_lt other hother
      omega
    · exact hcredit
    · have hle := hleast.after_le other hother
      omega
  have hlist : (fifo.restore key).main.toList ++ [key] = before ++ victim :: (after ++ [key]) := by
    calc
      _ = (before ++ victim :: after) ++ [key] := congrArg (· ++ [key]) hsplit
      _ = _ := by rw [List.append_assoc, List.cons_append]
  have hswept := swept_enterMain (h.queues_restore hnew) h.queues.valid_main hnot hfull hlist
    ⟨hleast.before_lt, fun _ _ ↦ by omega⟩
  rw [hvictim, ← enroll_of_ghost hghost] at hswept
  exact ⟨before, victim, after, hsplit, hswept⟩

/-- If all keys of the full main queue have an access to their credit, each loses one and the new
key is evicted. -/
theorem Valid.swept_enroll_of_busy (h : fifo.Valid) (hnew : key ∉ fifo.entries)
    (hghost : fifo.ghosts.contains (fingerprint key) = true) (hfull : ¬fifo.MainHasRoom)
    (hbusy : ¬fifo.MainHasIdle) :
    Swept ((fifo.restore key).pushMain key) (fifo.enroll key) fifo.main.toList key [] 0 := by
  have hnot := (h.not_mem_queues hnew).2
  have hleast : FirstLeast (creditAt (fifo.restore key).entries) fifo.main.toList key [] := by
    refine ⟨?_, fun _ hmem ↦ absurd hmem List.not_mem_nil⟩
    intro other hother
    have hne : other ≠ key := fun heq ↦ hnot (heq ▸ hother)
    obtain ⟨entry, hentry⟩ := h.queues.indexed other hother
    rw [creditAt_restore, creditAt_congr (entry_restore_of_ne fifo hne)]
    apply Nat.pos_of_ne_zero
    intro hzero
    exact hbusy ⟨other, hother, (creditAt_eq_zero_iff hentry).1 hzero⟩
  have hswept := swept_enterMain (h.queues_restore hnew) h.queues.valid_main hnot hfull rfl hleast
  rw [creditAt_restore, ← enroll_of_ghost hghost] at hswept
  exact hswept

/-- A remembered key ends up in the main queue if there is room or a key that can make way. -/
theorem Valid.inMain_enroll (h : fifo.Valid) (hnew : key ∉ fifo.entries)
    (hghost : fifo.ghosts.contains (fingerprint key) = true) :
    (fifo.enroll key).inMain key = true ↔ fifo.MainHasRoom ∨ fifo.MainHasIdle := by
  have hnot := (h.not_mem_queues hnew).2
  by_cases hroom : fifo.MainHasRoom
  · have hrestored : (fifo.restore key).MainHasRoom := hroom
    have hmain : (fifo.restore key).main.Valid := h.queues.valid_main
    have hentered : (fifo.enroll key).main = fifo.main.push .back key := by
      rw [enroll_of_ghost hghost, enterMain_of_room hmain hnot hrestored]
      rfl
    have hvalid := h.queues.valid_main.push .back key
    rw [inMain, hentered, hvalid.contains_iff]
    simp [hroom, h.queues.valid_main.mem_push]
  · by_cases hidle : fifo.MainHasIdle
    · obtain ⟨before, victim, after, -, hswept⟩ := h.swept_enroll_of_idle hnew hghost hroom hidle
      rw [inMain, hswept.valid_main.contains_iff, hswept.toList_main]
      simp [hidle]
    · have hswept := h.swept_enroll_of_busy hnew hghost hroom hidle
      rw [inMain, hswept.valid_main.contains_iff, hswept.toList_main]
      simp [hroom, hidle, hnot]

omit [HashMaterial κ] in
theorem ghosts_enterMain (hqueues : Queues (fifo.pushMain key).entries (fifo.pushMain key).small
    (fifo.pushMain key).main) (hmain : fifo.main.Valid) :
    (fifo.enterMain key).ghosts = fifo.ghosts := by
  have hne : (fifo.pushMain key).main.toList ≠ [] :=
    List.ne_nil_of_mem ((hmain.mem_push .back).2 (.inl rfl))
  rw [enterMain_eq]
  split_ifs
  · exact (hqueues.evictFromMain hne).2.2.1
  · rfl

/-- The fingerprint of a key that comes back is forgotten, whatever becomes of the key. -/
theorem Valid.ghosts_enroll (h : fifo.Valid) (hnew : key ∉ fifo.entries)
    (hghost : fifo.ghosts.contains (fingerprint key) = true) :
    (fifo.enroll key).ghosts = fifo.ghosts.erase (fingerprint key) := by
  rw [enroll_of_ghost hghost]
  exact ghosts_enterMain (h.queues_restore hnew) h.queues.valid_main

/-! ## An unknown key -/

/-- The key that makes way in the small queue for a new one: the oldest, or the new key itself if
there is no other. -/
def oldestWith (fifo : S3Fifo κ) (key : κ) : κ := fifo.small.toList.getLast?.getD key

omit [LawfulBEq κ] [HashMaterial κ] in
theorem oldestWith_mem (hne : fifo.small.toList ≠ []) (key : κ) :
    fifo.oldestWith key ∈ fifo.small.toList := by
  rw [oldestWith, List.getLast?_eq_some_getLast hne, Option.getD_some]
  exact List.getLast_mem hne

omit [HashMaterial κ] in
theorem Valid.queues_introduce (h : fifo.Valid) (hnew : key ∉ fifo.entries) :
    Queues (fifo.introduce key).entries (fifo.introduce key).small (fifo.introduce key).main := by
  have hzero : (0 : UInt8) ≤ frequencyMax := by decide
  exact h.queues.enter_small hnew hzero

omit [HashMaterial κ] in
theorem Valid.toList_introduce (h : fifo.Valid) (hnew : key ∉ fifo.entries) :
    (fifo.introduce key).small.toList = key :: fifo.small.toList :=
  h.queues.valid_small.toList_push_of_not_mem .front (h.not_mem_queues hnew).1

/-- A new key is at most one too many, so at most one key leaves the small queue. -/
theorem Valid.enroll_unknown (h : fifo.Valid) (hnew : key ∉ fifo.entries)
    (hghost : fifo.ghosts.contains (fingerprint key) = false) :
    fifo.enroll key = if fifo.small.length < fifo.smallQuota then fifo.introduce key
      else (fifo.introduce key).leaveSmall (fifo.oldestWith key) := by
  have hsmall := h.small_le
  have hvalid := (h.queues_introduce hnew).valid_small
  have hlength : (fifo.introduce key).small.length = fifo.small.length + 1 :=
    h.queues.valid_small.length_push .front (h.not_mem_queues hnew).1
  have holdest : (fifo.introduce key).small.peek? .back = some (fifo.oldestWith key) := by
    rw [hvalid.peek?_back, h.toList_introduce hnew, List.getLast?_cons]
    rfl
  rw [enroll_eq, if_neg (by simp [hghost]), drainSmall, hlength]
  change drainSmall.settle (fifo.introduce key) (fifo.small.length + 1 - fifo.smallQuota) = _
  split_ifs with hroom
  · rw [Nat.sub_eq_zero_of_le hroom]
    rfl
  · have hone : fifo.small.length + 1 - fifo.smallQuota = 1 := by omega
    rw [hone, drainSmall.settle, holdest]
    rfl

omit [HashMaterial κ] in
theorem entry_introduce (fifo : S3Fifo κ) (key : κ) :
    (fifo.introduce key).entries[key]? = some ⟨0, fifo.tick⟩ :=
  Std.HashMap.getElem?_insert_self

/-- Another key that leaves the small queue leaves the new one where it is. -/
theorem Valid.entry_leaveSmall_introduce (h : fifo.Valid) (hnew : key ∉ fifo.entries)
    {oldest : κ} (hmem : oldest ∈ fifo.small.toList) :
    ((fifo.introduce key).leaveSmall oldest).entries[key]? =
      (fifo.introduce key).entries[key]? := by
  obtain ⟨hnotSmall, hnotMain⟩ := h.not_mem_queues hnew
  have hne : key ≠ oldest := fun heq ↦ hnotSmall (heq ▸ hmem)
  have hqueues := h.queues_introduce hnew
  have hmem' : oldest ∈ (fifo.introduce key).small.toList := by
    rw [h.toList_introduce hnew]
    exact List.mem_cons_of_mem _ hmem
  obtain ⟨entry, hentry⟩ := hqueues.entry_of_mem (.inl hmem')
  rw [leaveSmall_of_entry hentry]
  split_ifs
  · exact getElem?_erase_of_ne _ hne
  · have hother : key ∉ fifo.main.toList ++ [oldest] := by simp [hnotMain, hne]
    exact entry_enterMain_of_not_mem (hqueues.graduate hmem') hqueues.valid_main
      (h.queues.small_main oldest hmem) hother

/-- If the small queue has no room at all, the new key is the one that leaves it. -/
theorem Valid.leaveSmall_introduce_of_no_quota (h : fifo.Valid) (hzero : fifo.smallQuota = 0) :
    (fifo.introduce key).leaveSmall (fifo.oldestWith key) = (fifo.introduce key).retire key := by
  have hnil : fifo.small.toList = [] := by
    rw [← List.length_eq_zero_iff, ← h.queues.valid_small.length_eq]
    exact Nat.le_zero.1 (hzero ▸ h.small_le)
  have holdest : fifo.oldestWith key = key := by
    rw [oldestWith, hnil]
    rfl
  rw [holdest, leaveSmall_of_entry (entry_introduce fifo key), if_pos rfl]

/-- An unknown key is admitted if the small queue has any room at all. -/
theorem Valid.frequency?_enroll (h : fifo.Valid) (hnew : key ∉ fifo.entries)
    (hghost : fifo.ghosts.contains (fingerprint key) = false) :
    (fifo.enroll key).frequency? key = if 1 ≤ fifo.smallQuota then some 0 else none := by
  have hentry := entry_introduce fifo key
  rw [h.enroll_unknown hnew hghost]
  split_ifs with hroom hquota hquota
  · rw [frequency?_eq, hentry, Option.map_some]
  · omega
  · have hpos : 0 < fifo.small.toList.length := by
      rw [← h.queues.valid_small.length_eq]
      omega
    have hmem := oldestWith_mem (List.ne_nil_of_length_pos hpos) key
    rw [frequency?_eq, h.entry_leaveSmall_introduce hnew hmem, hentry, Option.map_some]
  · have hzero : fifo.smallQuota = 0 := by omega
    have hgone : ((fifo.introduce key).retire key).entries[key]? = none :=
      Std.HashMap.getElem?_erase_self
    rw [h.leaveSmall_introduce_of_no_quota hzero, frequency?_eq, hgone, Option.map_none]

/-! ## Writes -/

variable {capacity : Nat} {smallRatio ghostRatio : Float}

omit [LawfulBEq κ] in
theorem put_of_new (hpos : 0 < fifo.capacity) (hnew : fifo.entries[key]? = none) :
    fifo.put key = (.ok (), fifo.advance.enroll key) := by
  have hadvanced : fifo.advance.entry? key = none := hnew
  rw [put, if_neg (Nat.pos_iff_ne_zero.1 hpos)]
  simp only [hadvanced]

/-- A new key that finds the small queue full takes the place of the oldest key there. If that has
no access to its credit, it is remembered from then on, and the main queue is left alone. -/
theorem Valid.put_retires (h : fifo.Valid) (hpos : 0 < fifo.capacity)
    (hnew : fifo.entries[key]? = none) (hghost : fifo.ghosts.contains (fingerprint key) = false)
    (hfull : fifo.smallQuota ≤ fifo.small.length) {oldest : κ}
    (holdest : fifo.small.toList.getLast? = some oldest)
    (hidle : fifo.frequency? oldest = some 0) (hroom : fifo.ghosts.size < fifo.ghosts.capacity) :
    (fifo.put key).2.entries[oldest]? = none ∧
      (fifo.put key).2.ghosts.contains (fingerprint oldest) = true ∧
      (fifo.put key).2.main = fifo.main ∧
      ∀ other ∈ fifo.main.toList, (fifo.put key).2.entries[other]? = fifo.entries[other]? := by
  have hnot : key ∉ fifo.advance.entries := not_mem_of_getElem? hnew
  have hplace : fifo.advance.oldestWith key = oldest := by
    change fifo.small.toList.getLast?.getD key = oldest
    rw [holdest, Option.getD_some]
  have hintroduced {other : κ} (hne : other ≠ key) :
      (fifo.advance.introduce key).entries[other]? = fifo.entries[other]? :=
    getElem?_insert_of_ne _ _ hne
  have hne : oldest ≠ key := by
    rintro rfl
    rw [frequency?_eq, hnew] at hidle
    cases hidle
  obtain ⟨entry, hentry, hzero⟩ := Option.map_eq_some_iff.1 hidle
  have hretired : (fifo.put key).2 = (fifo.advance.introduce key).retire oldest := by
    have hout : ¬fifo.advance.small.length < fifo.advance.smallQuota := Nat.not_lt.2 hfull
    rw [put_of_new hpos hnew]
    dsimp only
    rw [h.advance.enroll_unknown hnot hghost, if_neg hout, hplace,
      leaveSmall_of_entry ((hintroduced hne).trans hentry), if_pos hzero]
  rw [hretired]
  refine ⟨Std.HashMap.getElem?_erase_self, GhostQueue.contains_record_of_room hroom _, rfl, ?_⟩
  intro other hother
  have hapart : other ≠ oldest := by
    rintro rfl
    exact h.queues.small_main other (List.mem_of_getLast? holdest) hother
  have hkey : other ≠ key := fun heq ↦ (h.advance.not_mem_queues hnot).2 (heq ▸ hother)
  exact (getElem?_erase_of_ne _ hapart).trans (hintroduced hkey)

/-- The main queue has the key after its write exactly if a place was free or could be freed. -/
theorem Valid.inMain_put (h : fifo.Valid) (hpos : 0 < fifo.capacity)
    (hnew : fifo.entries[key]? = none)
    (hghost : fifo.ghosts.contains (fingerprint key) = true) :
    (fifo.put key).2.inMain key = true ↔ fifo.main.length < fifo.mainQuota ∨
      ∃ other ∈ fifo.main.toList, fifo.frequency? other = some 0 := by
  have hnot : key ∉ fifo.advance.entries := not_mem_of_getElem? hnew
  rw [put_of_new hpos hnew]
  exact h.advance.inMain_enroll hnot hghost

/-! ## The return of a remembered key -/

theorem create_half : create (κ := UInt64) 2 0.5 0.5 = .ok (ofQuotas 1 1 1) := by
  have hsmall : (!Number.within 0 1 0.5) = false := by decide
  have hghost : (!(0.5 : Float).isFinite || (0.5 : Float) < 0) = false := by decide
  have hshare : smallShare 2 0.5 = 1 := by decide
  have hghosts : ghostShare 2 0.5 = 1 := by decide
  have hmain : mainShare 2 1 = .ok 1 := by rfl
  simp only [create, hsmall, hghost, hshare, hghosts, hmain, Bool.false_eq_true, if_false]
  rfl

/-- A policy with room for one key in either queue and for one fingerprint, after some calls. -/
def narrow (calls : List (Call UInt64)) : S3Fifo UInt64 := serve.run (ofQuotas 1 1 1) calls

theorem reachable_narrow (calls : List (Call UInt64)) : (narrow calls).Reachable 2 0.5 0.5 :=
  ⟨_, calls, create_half, rfl⟩

theorem quotas_narrow (calls : List (Call UInt64)) : (narrow calls).quotas = (1, 1, 2) :=
  quotas_run (ofQuotas 1 1 1) calls

/-- A new key that finds an idle key alone in the small queue takes its place. -/
theorem narrow_put {calls : List (Call UInt64)} {key oldest : UInt64}
    (hghosts : (narrow calls).ghosts = .empty 1) (hnew : (narrow calls).entries[key]? = none)
    (hsmall : (narrow calls).small.toList = [oldest])
    (hidle : (narrow calls).frequency? oldest = some 0) :
    (narrow (calls ++ [.put key])).entries[oldest]? = none ∧
      (narrow (calls ++ [.put key])).ghosts.contains (fingerprint oldest) = true ∧
      (narrow (calls ++ [.put key])).main = (narrow calls).main ∧
      ∀ other ∈ (narrow calls).main.toList,
        (narrow (calls ++ [.put key])).entries[other]? = (narrow calls).entries[other]? := by
  have hvalid := (reachable_narrow calls).valid
  have hcapacity : (narrow calls).capacity = 2 := congrArg (·.2.2) (quotas_narrow calls)
  have hquota : (narrow calls).smallQuota = 1 := congrArg (·.1) (quotas_narrow calls)
  have hpos : 0 < (narrow calls).capacity := by
    rw [hcapacity]
    exact Nat.two_pos
  have hfull : (narrow calls).smallQuota ≤ (narrow calls).small.length := by
    rw [hquota, hvalid.queues.valid_small.length_eq, hsmall]
    exact Nat.le_refl 1
  have hunknown : (narrow calls).ghosts.contains (fingerprint key) = false := by
    simp [hghosts, GhostQueue.contains, GhostQueue.empty]
  have hspare : (narrow calls).ghosts.size < (narrow calls).ghosts.capacity := by
    simp [hghosts, GhostQueue.size, GhostQueue.empty]
  have holdest : (narrow calls).small.toList.getLast? = some oldest := by
    rw [hsmall]
    rfl
  rw [narrow, serve.run_append]
  exact hvalid.put_retires hpos hnew hunknown hfull holdest hidle hspare

/-- The write of a remembered key makes the fingerprint forgotten, and the key is in the main
queue afterwards exactly if that had room or held a key without an access to its credit. Otherwise
the key is not tracked, and each key of the main queue has lost an access. -/
theorem inMain_put_of_remembered (h : fifo.Reachable capacity smallRatio ghostRatio)
    (hpos : 1 ≤ capacity) (hnew : fifo.entries[key]? = none)
    (hghost : fifo.ghosts.contains (fingerprint key) = true) :
    (fifo.put key).1 = .ok () ∧
      (fifo.put key).2.ghosts.contains (fingerprint key) = false ∧
      ((fifo.put key).2.inMain key = true ↔ fifo.main.length < fifo.mainQuota ∨
        ∃ other ∈ fifo.main.toList, fifo.frequency? other = some 0) ∧
      ((fifo.put key).2.inMain key = false →
        (fifo.put key).2.entries[key]? = none ∧
        (fifo.put key).2.main.toList = fifo.main.toList ∧
        ∀ other ∈ fifo.main.toList,
          (fifo.put key).2.entries[other]? = (fifo.entries[other]?).map (·.charge 1)) := by
  have hvalid := h.valid.advance
  have hnot : key ∉ fifo.advance.entries := not_mem_of_getElem? hnew
  have hcapacity : 0 < fifo.capacity := by
    rw [h.capacity_eq]
    exact hpos
  have hmain := h.valid.inMain_put hcapacity hnew hghost
  rw [put_of_new hcapacity hnew] at hmain ⊢
  refine ⟨rfl, ?_, hmain, ?_⟩
  · rw [hvalid.ghosts_enroll hnot hghost, GhostQueue.contains_erase, beq_self_eq_true]
    rfl
  · intro hout
    have hneither : ¬fifo.advance.MainHasRoom ∧ ¬fifo.advance.MainHasIdle := by
      rw [← not_or]
      intro hplace
      exact absurd (hmain.2 hplace) (Bool.eq_false_iff.1 hout)
    have hswept := hvalid.swept_enroll_of_busy hnot hghost hneither.1 hneither.2
    refine ⟨hswept.entry_victim, hswept.toList_main, ?_⟩
    intro other hother
    have hne : other ≠ key := fun heq ↦ (hvalid.not_mem_queues hnot).2 (heq ▸ hother)
    calc
      _ = ((fifo.advance.restore key).entries[other]?).map (·.charge 1) :=
        hswept.entry_before other hother
      _ = _ := by
        rw [entry_restore_of_ne _ hne]
        rfl

/-- Key 1 leaves when key 2 is written and goes to the main queue when it comes back. -/
theorem inMain_put_of_remembered_narrow :
    (narrow [.put 1, .put 2]).Reachable 2 0.5 0.5 ∧ 1 ≤ 2 ∧
      (narrow [.put 1, .put 2]).entries[(1 : UInt64)]? = none ∧
      (narrow [.put 1, .put 2]).ghosts.contains (fingerprint (1 : UInt64)) = true ∧
      ((narrow [.put 1, .put 2]).put 1).2.inMain 1 = true := by
  have hghosts : (narrow [.put 1]).ghosts = .empty 1 := by cbv
  have hkey : (narrow [.put 1]).entries[(2 : UInt64)]? = none := by cbv
  have hsmall : (narrow [.put 1]).small.toList = [1] := by cbv
  have hidle : (narrow [.put 1]).frequency? 1 = some 0 := by cbv
  obtain ⟨hnew, hghost, hmain, -⟩ := narrow_put hghosts hkey hsmall hidle
  have hquota : (narrow [.put 1, .put 2]).mainQuota = 1 := congrArg (·.2.1) (quotas_narrow _)
  have hroom : (narrow [.put 1, .put 2]).main.length < (narrow [.put 1, .put 2]).mainQuota := by
    calc
      (narrow [.put 1, .put 2]).main.length = (narrow [.put 1]).main.length :=
        congrArg (·.length) hmain
      _ = 0 := by cbv
      _ < 1 := Nat.one_pos
      _ = (narrow [.put 1, .put 2]).mainQuota := hquota.symm
  have hreach := reachable_narrow [.put 1, .put 2]
  exact ⟨hreach, by decide, hnew, hghost,
    (inMain_put_of_remembered hreach (by decide) hnew hghost).2.2.1.2 (.inl hroom)⟩

/-- Key 1 fills the main queue and has an access to its credit, so key 2 finds no room there when
it comes back. -/
theorem not_inMain_put_of_remembered :
    (narrow [.put 1, .get 1, .put 2, .put 3]).Reachable 2 0.5 0.5 ∧
      1 ≤ (narrow [.put 1, .get 1, .put 2, .put 3]).smallQuota ∧
      1 ≤ (narrow [.put 1, .get 1, .put 2, .put 3]).mainQuota ∧
      (narrow [.put 1, .get 1, .put 2, .put 3]).entries[(2 : UInt64)]? = none ∧
      (narrow [.put 1, .get 1, .put 2, .put 3]).ghosts.contains (fingerprint (2 : UInt64)) = true ∧
      ((narrow [.put 1, .get 1, .put 2, .put 3]).put 2).2.inMain 2 = false := by
  have hghosts : (narrow [.put 1, .get 1, .put 2]).ghosts = .empty 1 := by cbv
  have hkey : (narrow [.put 1, .get 1, .put 2]).entries[(3 : UInt64)]? = none := by cbv
  have hsmall : (narrow [.put 1, .get 1, .put 2]).small.toList = [2] := by cbv
  have hidle : (narrow [.put 1, .get 1, .put 2]).frequency? 2 = some 0 := by cbv
  have hlist : (narrow [.put 1, .get 1, .put 2]).main.toList = [1] := by cbv
  have hbusy : (narrow [.put 1, .get 1, .put 2]).frequency? 1 = some 1 := by cbv
  obtain ⟨hnew, hghost, hmain, hkept⟩ := narrow_put hghosts hkey hsmall hidle
  change (narrow [.put 1, .get 1, .put 2, .put 3]).main = _ at hmain
  have hreach := reachable_narrow [.put 1, .get 1, .put 2, .put 3]
  have hquotas := quotas_narrow [.put 1, .get 1, .put 2, .put 3]
  have hquota : (narrow [.put 1, .get 1, .put 2, .put 3]).mainQuota = 1 :=
    congrArg (·.2.1) hquotas
  have hpos : 0 < (narrow [.put 1, .get 1, .put 2, .put 3]).capacity := by
    rw [hreach.capacity_eq]
    exact Nat.two_pos
  have hout : ((narrow [.put 1, .get 1, .put 2, .put 3]).put 2).2.inMain 2 = false := by
    rw [← Bool.not_eq_true, hreach.valid.inMain_put hpos hnew hghost, not_or]
    constructor
    · rw [hreach.valid.queues.valid_main.length_eq, hmain, hlist, hquota]
      exact Nat.lt_irrefl 1
    · rintro ⟨other, hother, hzero⟩
      rw [hmain, hlist, List.mem_singleton] at hother
      have hsame := hkept 1 (by rw [hlist]; exact List.mem_singleton_self 1)
      change (narrow [.put 1, .get 1, .put 2, .put 3]).entries[(1 : UInt64)]? = _ at hsame
      rw [hother, frequency?_eq, hsame, ← frequency?_eq, hbusy] at hzero
      exact absurd hzero (by decide)
  exact ⟨hreach, (congrArg (·.1) hquotas).ge, hquota.ge, hnew, hghost, hout⟩

/-! ## The admission of an unknown key -/

theorem Valid.frequency?_put (h : fifo.Valid) (hpos : 0 < fifo.capacity)
    (hnew : fifo.entries[key]? = none) (hghost : fifo.ghosts.contains (fingerprint key) = false) :
    (fifo.put key).2.frequency? key = if 1 ≤ fifo.smallQuota then some 0 else none := by
  rw [put_of_new hpos hnew]
  exact h.advance.frequency?_enroll (not_mem_of_getElem? hnew) hghost

/-- A key that the small queue has no room for leaves nothing but its fingerprint. -/
theorem Valid.put_of_no_quota (h : fifo.Valid) (hpos : 0 < fifo.capacity)
    (hzero : fifo.smallQuota = 0) (hnew : fifo.entries[key]? = none)
    (hghost : fifo.ghosts.contains (fingerprint key) = false) :
    (fifo.put key).2 = (fifo.advance.introduce key).retire key := by
  have hfull : ¬fifo.advance.small.length < fifo.advance.smallQuota := by
    change ¬fifo.small.length < fifo.smallQuota
    omega
  rw [put_of_new hpos hnew]
  dsimp only
  rw [h.advance.enroll_unknown (not_mem_of_getElem? hnew) hghost, if_neg hfull,
    h.advance.leaveSmall_introduce_of_no_quota hzero]

/-- The write of an unknown key succeeds, and the key is tracked from then on if the share of the
small queue comes to one key or more. Otherwise nothing changes but the ghost queue, which has the
fingerprint, and the very next read misses. -/
theorem frequency?_put_of_unknown (h : fifo.Reachable capacity smallRatio ghostRatio)
    (hpos : 1 ≤ capacity) (hnew : fifo.entries[key]? = none)
    (hghost : fifo.ghosts.contains (fingerprint key) = false) :
    (fifo.put key).1 = .ok () ∧
      (1 ≤ smallShare capacity smallRatio →
        (fifo.put key).2.frequency? key = some 0 ∧ ((fifo.put key).2.get key).1 = .ok ()) ∧
      (smallShare capacity smallRatio = 0 →
        (fifo.put key).2.frequency? key = none ∧
        ((fifo.put key).2.get key).1 = .error .notFound ∧
        (fifo.put key).2.ghosts = fifo.ghosts.record (fingerprint key) ∧
        (∀ other : κ, (fifo.put key).2.entries[other]? = fifo.entries[other]?) ∧
        (fifo.put key).2.small.toList = fifo.small.toList ∧
        (fifo.put key).2.main = fifo.main) := by
  have hcapacity : 0 < fifo.capacity := by
    rw [h.capacity_eq]
    exact hpos
  have hfrequency := h.valid.frequency?_put hcapacity hnew hghost
  have hget := get_fst_of_frequency? (fifo.put key).2 key
  rw [h.smallQuota_eq] at hfrequency
  refine ⟨?_, ?_, ?_⟩
  · rw [put_fst, if_neg (Nat.pos_iff_ne_zero.1 hcapacity)]
  · intro hshare
    rw [if_pos hshare] at hfrequency
    rw [hfrequency] at hget
    exact ⟨hfrequency, hget⟩
  · intro hshare
    have hzero : fifo.smallQuota = 0 := h.smallQuota_eq.trans hshare
    rw [hshare, if_neg (Nat.not_succ_le_zero 0)] at hfrequency
    rw [hfrequency] at hget
    have hstate := h.valid.put_of_no_quota hcapacity hzero hnew hghost
    refine ⟨hfrequency, hget, ?_⟩
    rw [hstate]
    have hnot : key ∉ fifo.entries := not_mem_of_getElem? hnew
    have hsmall := h.valid.advance.toList_introduce hnot
    refine ⟨rfl, ?_, ?_, rfl⟩
    · intro other
      rw [retire, introduce, Std.HashMap.getElem?_erase, Std.HashMap.getElem?_insert]
      split_ifs with heq
      · rw [← beq_iff_eq.1 heq, hnew]
      · rfl
    · calc
        _ = (fifo.advance.introduce key).small.toList.erase key :=
          (h.valid.advance.queues_introduce hnot).valid_small.toList_erase key
        _ = fifo.small.toList := by
          rw [hsmall, List.erase_cons_head]
          rfl

/-- Key 2 is in the small queue and makes way for key 3. -/
theorem frequency?_put_of_unknown_narrow :
    (narrow [.put 1, .get 1, .put 2]).Reachable 2 0.5 0.5 ∧ 1 ≤ 2 ∧
      (narrow [.put 1, .get 1, .put 2]).entries[(3 : UInt64)]? = none ∧
      (narrow [.put 1, .get 1, .put 2]).ghosts.contains (fingerprint (3 : UInt64)) = false ∧
      ((narrow [.put 1, .get 1, .put 2]).put 3).2.frequency? 3 = some 0 := by
  have hreach := reachable_narrow [.put 1, .get 1, .put 2]
  have hnew : (narrow [.put 1, .get 1, .put 2]).entries[(3 : UInt64)]? = none := by cbv
  have hghost : (narrow [.put 1, .get 1, .put 2]).ghosts.contains
      (fingerprint (3 : UInt64)) = false := by cbv
  have hshare : 1 ≤ smallShare 2 0.5 := by decide
  exact ⟨hreach, by decide, hnew, hghost,
    ((frequency?_put_of_unknown hreach (by decide) hnew hghost).2.1 hshare).1⟩

/-- A tenth of five is no key at all, so a policy for five keys drops every key that it is given
for the first time. -/
theorem not_tracked_put_of_unknown :
    (ofQuotas 0 5 5 : S3Fifo UInt64).Reachable 5 0.1 0.9 ∧
      (ofQuotas 0 5 5 : S3Fifo UInt64).entries[(1 : UInt64)]? = none ∧
      (ofQuotas 0 5 5 : S3Fifo UInt64).ghosts.contains (fingerprint (1 : UInt64)) = false ∧
      ((ofQuotas 0 5 5 : S3Fifo UInt64).put 1).1 = .ok () ∧
      ((ofQuotas 0 5 5 : S3Fifo UInt64).put 1).2.frequency? 1 = none ∧
      (((ofQuotas 0 5 5 : S3Fifo UInt64).put 1).2.get 1).1 = .error .notFound := by
  have hcreate : create 5 0.1 0.9 = .ok (ofQuotas 0 5 5 : S3Fifo UInt64) := by
    have hsmall : (!Number.within 0 1 0.1) = false := by decide
    have hghost : (!(0.9 : Float).isFinite || (0.9 : Float) < 0) = false := by decide
    have hshare : smallShare 5 0.1 = 0 := by decide
    have hghosts : ghostShare 5 0.9 = 5 := by decide
    have hmain : mainShare 5 0 = .ok 5 := by rfl
    simp only [create, hsmall, hghost, hshare, hghosts, hmain, Bool.false_eq_true, if_false]
    rfl
  have hpos : 0 < (ofQuotas 0 5 5 : S3Fifo UInt64).capacity := by decide
  have hnew : (ofQuotas 0 5 5 : S3Fifo UInt64).entries[(1 : UInt64)]? = none := by cbv
  have hghost : (ofQuotas 0 5 5 : S3Fifo UInt64).ghosts.contains
      (fingerprint (1 : UInt64)) = false := by cbv
  have hfrequency := (valid_ofQuotas 0 5 5).frequency?_put hpos hnew hghost
  have hget := get_fst_of_frequency? ((ofQuotas 0 5 5 : S3Fifo UInt64).put 1).2 1
  rw [hfrequency] at hget
  exact ⟨⟨_, [], hcreate, rfl⟩, hnew, hghost, by rw [put_fst]; rfl, hfrequency, hget⟩

end KeyHeat.S3Fifo

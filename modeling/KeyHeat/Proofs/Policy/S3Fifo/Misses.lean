import KeyHeat.Proofs.Policy.S3Fifo.Admission

/-!
# Missed reads of the three-queue policy

A read that misses advances the tick and changes nothing else. So a run and the same run without
its missed reads stay in step: they have the same queues, credits and remembered fingerprints, and
only the ticks of the last accesses tell them apart. The tick of an access is ahead by the number
of missed reads before it.
-/

namespace KeyHeat

/-- An entry whose tick is read off another clock. -/
def S3FifoEntry.retime (clock : Nat → Nat) (entry : S3FifoEntry) : S3FifoEntry :=
  { entry with lastAccess := clock entry.lastAccess }

namespace S3Fifo

variable {κ : Type} [BEq κ] [Hashable κ] {clock : Nat → Nat}

/-! ## States that differ in their ticks -/

/-- The same keys are tracked with the same credit, and the clock translates the ticks. -/
def RetimedEntries (clock : Nat → Nat) (first second : Std.HashMap κ S3FifoEntry) : Prop :=
  ∀ key : κ, first[key]? = (second[key]?).map (·.retime clock)

/-- The same state but for the ticks of the last accesses. -/
structure Retimed (clock : Nat → Nat) (first second : S3Fifo κ) : Prop where
  entries : RetimedEntries clock first.entries second.entries
  small_eq : first.small = second.small
  main_eq : first.main = second.main
  ghosts_eq : first.ghosts = second.ghosts
  quotas_eq : first.quotas = second.quotas

variable {first second : S3Fifo κ}

theorem Retimed.capacity_eq (h : Retimed clock first second) : first.capacity = second.capacity :=
  congrArg (·.2.2) h.quotas_eq

theorem Retimed.frequency?_eq (h : Retimed clock first second) (key : κ) :
    first.frequency? key = second.frequency? key := by
  rw [S3Fifo.frequency?_eq, S3Fifo.frequency?_eq, h.entries key, Option.map_map]
  rfl

theorem Retimed.lastAccess?_eq (h : Retimed clock first second) (key : κ) :
    first.lastAccess? key = (second.lastAccess? key).map clock := by
  calc
    first.lastAccess? key = (first.entries[key]?).map (·.lastAccess) := rfl
    _ = ((second.entries[key]?).map (·.retime clock)).map (·.lastAccess) := by rw [h.entries key]
    _ = ((second.entries[key]?).map (·.lastAccess)).map clock := by
      rw [Option.map_map, Option.map_map]
      rfl
    _ = (second.lastAccess? key).map clock := rfl

theorem Retimed.isHot_eq (h : Retimed clock first second) : first.isHot = second.isHot := by
  funext key
  rw [isHot, isHot, inMain, inMain, h.main_eq, h.frequency?_eq]

theorem Retimed.hotKeys_eq (h : Retimed clock first second) : first.hotKeys = second.hotKeys := by
  rw [hotKeys, hotKeys, h.main_eq, h.isHot_eq]

theorem Retimed.diagnostics_eq [KeyText κ] (h : Retimed clock first second) :
    first.diagnostics = second.diagnostics := by
  have hline : diagnostics.line first = diagnostics.line second := by
    funext label keys
    simp only [diagnostics.line, h.frequency?_eq]
  have hsmallQuota : first.smallQuota = second.smallQuota := congrArg (·.1) h.quotas_eq
  have hmainQuota : first.mainQuota = second.mainQuota := congrArg (·.2.1) h.quotas_eq
  unfold diagnostics
  rw [hline, h.capacity_eq, hsmallQuota, hmainQuota, h.small_eq, h.main_eq, h.ghosts_eq]

variable [LawfulBEq κ]

section Entries

variable {firstEntries secondEntries : Std.HashMap κ S3FifoEntry}

theorem RetimedEntries.insert (h : RetimedEntries clock firstEntries secondEntries) (key : κ)
    (entry : S3FifoEntry) :
    RetimedEntries clock (firstEntries.insert key (entry.retime clock))
      (secondEntries.insert key entry) := by
  intro other
  rw [Std.HashMap.getElem?_insert, Std.HashMap.getElem?_insert]
  split_ifs
  · rfl
  · exact h other

theorem RetimedEntries.erase (h : RetimedEntries clock firstEntries secondEntries) (key : κ) :
    RetimedEntries clock (firstEntries.erase key) (secondEntries.erase key) := by
  intro other
  rw [Std.HashMap.getElem?_erase, Std.HashMap.getElem?_erase]
  split_ifs
  · rfl
  · exact h other

end Entries

/-! ## Steps -/

theorem Retimed.dropFromMain (h : Retimed clock first second) (key : κ) :
    Retimed clock (first.dropFromMain key) (second.dropFromMain key) where
  entries := h.entries.erase key
  small_eq := h.small_eq
  main_eq := congrArg (·.erase key) h.main_eq
  ghosts_eq := h.ghosts_eq
  quotas_eq := h.quotas_eq

theorem Retimed.giveSecondChance (h : Retimed clock first second) (head : κ)
    (entry : S3FifoEntry) :
    Retimed clock (first.giveSecondChance head (entry.retime clock))
      (second.giveSecondChance head entry) where
  entries := h.entries.insert head { entry with frequency := entry.frequency - 1 }
  small_eq := h.small_eq
  main_eq := congrArg (·.touch .back head) h.main_eq
  ghosts_eq := h.ghosts_eq
  quotas_eq := h.quotas_eq

omit [LawfulBEq κ] in
/-- The credit of a key decides the same way in both states. -/
theorem retimed_ite {idle idle' busy busy' : S3Fifo κ} (entry : S3FifoEntry)
    (hidle : Retimed clock idle idle') (hbusy : Retimed clock busy busy') :
    Retimed clock (if (entry.retime clock).frequency = 0 then idle else busy)
      (if entry.frequency = 0 then idle' else busy') := by
  by_cases hzero : entry.frequency = 0
  · have hzero' : (entry.retime clock).frequency = 0 := hzero
    rw [if_pos hzero, if_pos hzero']
    exact hidle
  · have hzero' : (entry.retime clock).frequency ≠ 0 := hzero
    rw [if_neg hzero, if_neg hzero']
    exact hbusy

/-- A sweep goes by the order and the credits, so it takes the same course. -/
theorem Retimed.sweep (h : Retimed clock first second) (fuel : Nat) :
    Retimed clock (evictFromMain.sweep first fuel) (evictFromMain.sweep second fuel) := by
  induction fuel generalizing first second with
  | zero => exact h
  | succ fuel ih =>
    rw [evictFromMain.sweep, evictFromMain.sweep, h.main_eq]
    cases second.main.peek? .front with
    | none => exact h
    | some head =>
      have hentry : first.entry? head = (second.entry? head).map (·.retime clock) :=
        h.entries head
      dsimp only
      rw [hentry]
      cases second.entry? head with
      | none =>
        apply ih
        exact ⟨h.entries, h.small_eq, rfl, h.ghosts_eq, h.quotas_eq⟩
      | some entry =>
        exact retimed_ite entry (h.dropFromMain head) (ih (h.giveSecondChance head entry))

theorem Retimed.evictFromMain (h : Retimed clock first second) :
    Retimed clock first.evictFromMain second.evictFromMain := by
  rw [S3Fifo.evictFromMain, S3Fifo.evictFromMain, h.main_eq]
  exact h.sweep _

theorem Retimed.enterMain (h : Retimed clock first second) (key : κ) :
    Retimed clock (first.enterMain key) (second.enterMain key) := by
  have hpushed : Retimed clock (first.pushMain key) (second.pushMain key) :=
    ⟨h.entries, h.small_eq, congrArg (·.push .back key) h.main_eq, h.ghosts_eq, h.quotas_eq⟩
  have hquota : first.mainQuota = second.mainQuota := congrArg (·.2.1) h.quotas_eq
  rw [enterMain_eq, enterMain_eq, hpushed.main_eq, hquota]
  split_ifs
  · exact hpushed.evictFromMain
  · exact hpushed

variable [HashMaterial κ]

theorem Retimed.retire (h : Retimed clock first second) (key : κ) :
    Retimed clock (first.retire key) (second.retire key) where
  entries := h.entries.erase key
  small_eq := congrArg (·.erase key) h.small_eq
  main_eq := h.main_eq
  ghosts_eq := congrArg (·.record (fingerprint key)) h.ghosts_eq
  quotas_eq := h.quotas_eq

theorem Retimed.leaveSmall (h : Retimed clock first second) (key : κ) :
    Retimed clock (first.leaveSmall key) (second.leaveSmall key) := by
  have hpulled : Retimed clock (first.pullSmall key) (second.pullSmall key) :=
    ⟨h.entries, congrArg (·.erase key) h.small_eq, h.main_eq, h.ghosts_eq, h.quotas_eq⟩
  have hfirst := h.entries key
  cases hsecond : second.entries[key]? with
  | none =>
    rw [hsecond, Option.map_none] at hfirst
    rw [leaveSmall_of_new hfirst, leaveSmall_of_new hsecond]
    exact hpulled
  | some entry =>
    rw [hsecond, Option.map_some] at hfirst
    rw [leaveSmall_of_entry hfirst, leaveSmall_of_entry hsecond]
    exact retimed_ite entry (h.retire key) (hpulled.enterMain key)

theorem Retimed.settle (h : Retimed clock first second) (excess : Nat) :
    Retimed clock (drainSmall.settle first excess) (drainSmall.settle second excess) := by
  induction excess generalizing first second with
  | zero => exact h
  | succ excess ih =>
    rw [drainSmall.settle, drainSmall.settle, h.small_eq]
    cases second.small.peek? .back with
    | none => exact h
    | some oldest => exact ih (h.leaveSmall oldest)

theorem Retimed.drainSmall (h : Retimed clock first second) :
    Retimed clock first.drainSmall second.drainSmall := by
  have hquota : first.smallQuota = second.smallQuota := congrArg (·.1) h.quotas_eq
  rw [S3Fifo.drainSmall, S3Fifo.drainSmall, h.small_eq, hquota]
  exact h.settle _

omit [HashMaterial κ] in
theorem Retimed.touch (h : Retimed clock first second) (htick : clock second.tick = first.tick)
    (key : κ) (entry : S3FifoEntry) :
    Retimed clock (first.touch key (entry.retime clock)) (second.touch key entry) := by
  have hentries := h.entries.insert key ⟨min (entry.frequency + 1) frequencyMax, second.tick⟩
  rw [S3FifoEntry.retime, htick] at hentries
  exact ⟨hentries, h.small_eq, h.main_eq, h.ghosts_eq, h.quotas_eq⟩

theorem Retimed.enroll (h : Retimed clock first second) (htick : clock second.tick = first.tick)
    (key : κ) : Retimed clock (first.enroll key) (second.enroll key) := by
  have hentries : RetimedEntries clock (first.entries.insert key ⟨0, first.tick⟩)
      (second.entries.insert key ⟨0, second.tick⟩) := by
    rw [← htick]
    exact h.entries.insert key ⟨0, second.tick⟩
  have hrestored : Retimed clock (first.restore key) (second.restore key) :=
    ⟨hentries, h.small_eq, h.main_eq, congrArg (·.erase (fingerprint key)) h.ghosts_eq,
      h.quotas_eq⟩
  have hintroduced : Retimed clock (first.introduce key) (second.introduce key) :=
    ⟨hentries, congrArg (·.push .front key) h.small_eq, h.main_eq, h.ghosts_eq, h.quotas_eq⟩
  rw [enroll_eq, enroll_eq, h.ghosts_eq]
  split_ifs
  · exact hrestored.enterMain key
  · exact hintroduced.drainSmall

/-! ## Calls -/

omit [LawfulBEq κ] [HashMaterial κ] in
theorem Retimed.advance (h : Retimed clock first second) :
    Retimed clock first.advance second.advance :=
  ⟨h.entries, h.small_eq, h.main_eq, h.ghosts_eq, h.quotas_eq⟩

theorem Retimed.put (h : Retimed clock first second)
    (hclock : clock (second.tick + 1) = first.tick + 1) (key : κ) :
    Retimed clock (first.put key).2 (second.put key).2 := by
  have hentry : first.advance.entry? key = (second.advance.entry? key).map (·.retime clock) :=
    h.entries key
  unfold S3Fifo.put
  rw [h.capacity_eq]
  split_ifs
  · exact h
  · dsimp only
    rw [hentry]
    cases second.advance.entry? key with
    | none => exact h.advance.enroll hclock key
    | some entry => exact h.advance.touch hclock key entry

omit [HashMaterial κ] in
theorem Retimed.get (h : Retimed clock first second)
    (hclock : clock (second.tick + 1) = first.tick + 1) (key : κ) :
    Retimed clock (first.get key).2 (second.get key).2 := by
  have hentry : first.advance.entry? key = (second.advance.entry? key).map (·.retime clock) :=
    h.entries key
  unfold S3Fifo.get
  dsimp only
  rw [hentry]
  cases second.advance.entry? key with
  | none => exact h.advance
  | some entry => exact h.advance.touch hclock key entry

theorem Retimed.serve (h : Retimed clock first second)
    (hclock : clock (second.tick + 1) = first.tick + 1) (call : Call κ) :
    Retimed clock (S3Fifo.serve first call).2 (S3Fifo.serve second call).2 := by
  cases call with
  | put key => exact h.put hclock key
  | get key => exact h.get hclock key

theorem Retimed.serve_fst (h : Retimed clock first second) (call : Call κ) :
    (S3Fifo.serve first call).1 = (S3Fifo.serve second call).1 := by
  cases call with
  | put key =>
    change (first.put key).1 = (second.put key).1
    rw [put_fst, put_fst, h.capacity_eq]
  | get key =>
    change (first.get key).1 = (second.get key).1
    rw [get_fst_of_frequency?, get_fst_of_frequency?, h.frequency?_eq]

/-! ## Runs -/

omit [LawfulBEq κ] [HashMaterial κ] in
theorem get_of_new {key : κ} (hnew : first.entries[key]? = none) :
    first.get key = (.error .notFound, first.advance) := by
  have hentry : first.advance.entry? key = none := hnew
  rw [get]
  simp only [hentry]

omit [HashMaterial κ] in
theorem get_fst_eq_notFound_iff {key : κ} :
    (first.get key).1 = .error .notFound ↔ first.entries[key]? = none := by
  rw [get_fst_of_frequency?, frequency?_eq, Option.isSome_map]
  cases first.entries[key]? with
  | none => exact iff_of_true rfl rfl
  | some entry => exact iff_of_false (by rintro ⟨⟩) (Option.some_ne_none entry)

/-- A read that misses advances the tick and does nothing else. -/
theorem serve_of_misses {call : Call κ} (hmiss : serve.misses first call = true) :
    (serve first call).2 = first.advance := by
  cases call with
  | put key => cases hmiss
  | get key =>
    have hnew : first.entries[key]? = none := by
      rw [← get_fst_eq_notFound_iff]
      simp only [Service.misses] at hmiss
      split at hmiss
      · assumption
      · cases hmiss
    exact congrArg (·.2) (get_of_new hnew)

/-- The clock translates the ticks to come: of the calls up to a given rank, the second state is
spared as many as `skipped` tells. -/
def Ahead (clock skipped : Nat → Nat) (first second : S3Fifo κ) : Prop :=
  ∀ rank, clock (second.tick + (rank + 1)) = first.tick + (rank + 1) + skipped (rank + 1)

omit [LawfulBEq κ] in
theorem Ahead.serve {skipped : Nat → Nat} (h : Ahead clock skipped first second)
    (hfirst : 0 < first.capacity) (hsecond : 0 < second.capacity) (call : Call κ) :
    Ahead clock (fun rank ↦ skipped (rank + 1)) (S3Fifo.serve first call).2
      (S3Fifo.serve second call).2 := by
  intro rank
  rw [tick_serve hfirst, tick_serve hsecond]
  calc
    clock (second.tick + 1 + (rank + 1)) = clock (second.tick + (rank + 1 + 1)) := by
      congr 1
      omega
    _ = first.tick + (rank + 1 + 1) + skipped (rank + 1 + 1) := h (rank + 1)
    _ = first.tick + 1 + (rank + 1) + skipped (rank + 1 + 1) := by omega

/-- The same calls keep the states in step. -/
theorem Retimed.run (h : Retimed clock first second) (hpos : 0 < first.capacity)
    (hahead : Ahead clock (fun _ ↦ 0) first second) (calls : List (Call κ)) :
    Retimed clock (S3Fifo.serve.run first calls) (S3Fifo.serve.run second calls) := by
  induction calls generalizing first second with
  | nil => exact h
  | cons call calls ih =>
    have hpos' : 0 < second.capacity := by rwa [← h.capacity_eq]
    have hnext : 0 < (S3Fifo.serve first call).2.capacity :=
      hpos.trans_eq (congrArg (·.2.2) (first.quotas_serve call)).symm
    exact ih (h.serve (hahead 0) call) hnext (hahead.serve hpos hpos' call)

/-- Leaving out the reads that miss keeps the states in step if the clock makes up for them. -/
theorem Retimed.run_hits (h : Retimed clock first second) (hpos : 0 < first.capacity)
    {calls : List (Call κ)}
    (hahead : Ahead clock (S3Fifo.serve.missesBefore first calls) first second)
    (later : List (Call κ)) :
    Retimed clock (S3Fifo.serve.run first (calls ++ later))
      (S3Fifo.serve.run second (S3Fifo.serve.hits first calls ++ later)) := by
  induction calls generalizing first second with
  | nil => exact h.run hpos hahead later
  | cons call calls ih =>
    have hnext : 0 < (S3Fifo.serve first call).2.capacity :=
      hpos.trans_eq (congrArg (·.2.2) (first.quotas_serve call)).symm
    by_cases hmiss : S3Fifo.serve.misses first call = true
    -- The second state is spared this call, so only the first advances.
    · have hadvanced : Retimed clock (S3Fifo.serve first call).2 second := by
        rw [serve_of_misses hmiss]
        exact ⟨h.entries, h.small_eq, h.main_eq, h.ghosts_eq, h.quotas_eq⟩
      rw [Service.hits, if_pos hmiss]
      apply ih hadvanced hnext
      intro rank
      rw [hahead, Service.missesBefore_of_misses hmiss, tick_serve hpos]
      omega
    · have hpos' : 0 < second.capacity := by rwa [← h.capacity_eq]
      have hkept (rank : Nat) := Service.missesBefore_of_not_misses hmiss calls rank
      have hfirst : clock (second.tick + 1) = first.tick + 1 := by
        rw [hahead 0, hkept, Service.missesBefore_zero]
      have hserved := hahead.serve hpos hpos' call
      simp only [hkept] at hserved
      rw [Service.hits, if_neg hmiss]
      exact ih (h.serve hfirst call) hnext hserved

omit [LawfulBEq κ] in
/-- Without capacity nothing changes but the tick. -/
theorem run_of_no_capacity {fifo : S3Fifo κ} (hzero : fifo.capacity = 0)
    (hempty : ∀ key : κ, fifo.entries[key]? = none) (calls : List (Call κ)) :
    ∃ tick, serve.run fifo calls = { fifo with tick } := by
  induction calls generalizing fifo with
  | nil => exact ⟨fifo.tick, rfl⟩
  | cons call calls ih =>
    cases call with
    | put key =>
      have hput : (fifo.put key).2 = fifo := by rw [put, if_pos hzero]
      obtain ⟨tick, hrun⟩ := ih hzero hempty
      refine ⟨tick, ?_⟩
      calc
        serve.run fifo (.put key :: calls) = serve.run (fifo.put key).2 calls := rfl
        _ = _ := by rw [hput, hrun]
    | get key =>
      have hzero' : fifo.advance.capacity = 0 := hzero
      have hempty' (key : κ) : fifo.advance.entries[key]? = none := hempty key
      obtain ⟨tick, hrun⟩ := ih hzero' hempty'
      refine ⟨tick, ?_⟩
      calc
        serve.run fifo (.get key :: calls) = serve.run (fifo.get key).2 calls := rfl
        _ = serve.run fifo.advance calls := by rw [get_of_new (hempty key)]
        _ = _ := hrun

/-- All that can be asked of two states has the same answer, but for the ticks of the last
accesses, which the clock translates. -/
structure SameView (clock : Nat → Nat) (first second : S3Fifo κ) : Prop where
  size_eq : first.size = second.size
  hotKeys_eq : first.hotKeys = second.hotKeys
  isHot_eq : ∀ key, first.isHot key = second.isHot key
  frequency_eq : ∀ key, first.frequency? key = second.frequency? key
  inMain_eq : ∀ key, first.inMain key = second.inMain key
  small_eq : first.small.toList = second.small.toList
  main_eq : first.main.toList = second.main.toList
  ghosts_eq : first.ghosts = second.ghosts
  check_eq : first.check = second.check
  diagnostics_eq : ∀ [KeyText κ], first.diagnostics = second.diagnostics
  outcome_eq : ∀ call, (serve first call).1 = (serve second call).1
  lastAccess_eq : ∀ key, first.lastAccess? key = (second.lastAccess? key).map clock

theorem Retimed.sameView (h : Retimed clock first second) (hfirst : first.Valid)
    (hsecond : second.Valid) : SameView clock first second where
  size_eq := by
    calc
      first.size = first.small.length + first.main.length := hfirst.queues.size_eq
      _ = second.small.length + second.main.length := by rw [h.small_eq, h.main_eq]
      _ = second.size := hsecond.queues.size_eq.symm
  hotKeys_eq := h.hotKeys_eq
  isHot_eq := congrFun h.isHot_eq
  frequency_eq := h.frequency?_eq
  inMain_eq key := congrArg (·.contains key) h.main_eq
  small_eq := congrArg (·.toList) h.small_eq
  main_eq := congrArg (·.toList) h.main_eq
  ghosts_eq := h.ghosts_eq
  check_eq := hfirst.check_eq.trans hsecond.check_eq.symm
  diagnostics_eq := h.diagnostics_eq
  outcome_eq := h.serve_fst
  lastAccess_eq := h.lastAccess?_eq

variable {capacity : Nat} {smallRatio ghostRatio : Float}

/-- A run and the same run without its missed reads look the same, also after any further calls,
but for the ticks of the last accesses: each is ahead by the number of missed reads before that
access. -/
theorem sameView_without_misses {start : S3Fifo κ}
    (hstart : create capacity smallRatio ghostRatio = .ok start) (calls later : List (Call κ)) :
    SameView (fun tick ↦ tick + serve.missesBefore start calls tick)
      (serve.run start (calls ++ later))
      (serve.run start (serve.hits start calls ++ later)) := by
  have heq := (create_eq hstart).2
  have hempty (key : κ) : start.entries[key]? = none := by
    rw [heq]
    exact Std.HashMap.getElem?_empty
  have hvalid := (valid_create hstart).1
  refine Retimed.sameView ?_ (hvalid.run _) (hvalid.run _)
  rcases Nat.eq_zero_or_pos start.capacity with hzero | hpos
  · obtain ⟨tick, hfull⟩ := run_of_no_capacity hzero hempty (calls ++ later)
    obtain ⟨tick', hreduced⟩ :=
      run_of_no_capacity hzero hempty (serve.hits start calls ++ later)
    rw [hfull, hreduced]
    refine ⟨?_, rfl, rfl, rfl, rfl⟩
    intro key
    rw [hempty key]
    rfl
  · have hsame : Retimed (fun tick ↦ tick + serve.missesBefore start calls tick) start start := by
      refine ⟨?_, rfl, rfl, rfl, rfl⟩
      intro key
      rw [hempty key]
      rfl
    apply hsame.run_hits hpos
    intro rank
    have htick : start.tick = 0 := congrArg (·.tick) heq
    rw [htick, Nat.zero_add]

theorem hits_narrow : serve.hits (ofQuotas 1 1 1) [.get 9, .put (1 : UInt64)] = [.put 1] := by
  cbv

theorem sameView_without_misses_narrow :
    create 2 0.5 0.5 = .ok (ofQuotas 1 1 1 : S3Fifo UInt64) ∧
      SameView
        (fun tick ↦ tick + serve.missesBefore (ofQuotas 1 1 1) [.get 9, .put (1 : UInt64)] tick)
        (narrow [.get 9, .put 1, .get 1]) (narrow [.put 1, .get 1]) := by
  have hview := sameView_without_misses create_half [.get 9, .put (1 : UInt64)] [.get 1]
  rw [hits_narrow] at hview
  exact ⟨create_half, hview⟩

/-- The read of key 9 misses and still moves the tick of the next access. -/
theorem lastAccess_after_missed_read :
    create 2 0.5 0.5 = .ok (ofQuotas 1 1 1 : S3Fifo UInt64) ∧
      serve.hits (ofQuotas 1 1 1) [.get 9, .put (1 : UInt64)] = [.put 1] ∧
      (narrow [.get 9, .put 1]).lastAccess? 1 = some 2 ∧
      (narrow [.put 1]).lastAccess? 1 = some 1 := by
  have hfull : (narrow [.get 9, .put 1]).lastAccess? 1 = some 2 := by cbv
  have hreduced : (narrow [.put 1]).lastAccess? 1 = some 1 := by cbv
  exact ⟨create_half, hits_narrow, hfull, hreduced⟩

end S3Fifo

end KeyHeat

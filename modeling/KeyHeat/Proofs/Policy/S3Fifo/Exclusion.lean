import KeyHeat.Proofs.Policy.S3Fifo.Admission
import Mathlib.Data.Set.Function

/-!
# A key of the three-queue policy is in one place

As long as the fingerprints of the keys in use are distinct, no key is both tracked and
remembered. A write of a new key tracks it and takes out at most one key, which may be the new one
itself; only that key's fingerprint can be new in the ghost queue. Any other call leaves the keys
and their places alone.
-/

namespace KeyHeat.S3Fifo

variable {κ : Type} [BEq κ] [Hashable κ] {fifo : S3Fifo κ} {key : κ}

/-- The keys that have an entry. -/
def tracked (fifo : S3Fifo κ) : Set κ := {key | key ∈ fifo.entries}

section Sets

variable [LawfulBEq κ]

theorem tracked_insert {entries : Std.HashMap κ S3FifoEntry} {entry : S3FifoEntry} :
    {other : κ | other ∈ entries.insert key entry} = insert key {other | other ∈ entries} := by
  ext other
  change other ∈ entries.insert key entry ↔ other = key ∨ other ∈ entries
  rw [Std.HashMap.mem_insert, beq_iff_eq, eq_comm]

theorem tracked_erase {entries : Std.HashMap κ S3FifoEntry} :
    {other : κ | other ∈ entries.erase key} = {other | other ∈ entries} \ {key} := by
  ext other
  change other ∈ entries.erase key ↔ other ∈ entries ∧ other ≠ key
  rw [Std.HashMap.mem_erase, beq_eq_false_iff_ne, and_comm, ne_comm]

/-- A key that enters the main queue evicts at most one. -/
theorem tracked_enterMain
    (hqueues : Queues (fifo.pushMain key).entries (fifo.pushMain key).small
      (fifo.pushMain key).main)
    (hmain : fifo.main.Valid) (hnot : key ∉ fifo.main.toList) :
    ∃ gone : Set κ, gone.Subsingleton ∧ gone ⊆ fifo.tracked ∧
      (fifo.enterMain key).tracked = fifo.tracked \ gone := by
  by_cases hroom : fifo.MainHasRoom
  · refine ⟨∅, Set.subsingleton_empty, Set.empty_subset _, ?_⟩
    rw [enterMain_of_room hmain hnot hroom, Set.sdiff_empty]
    rfl
  · have hne : fifo.main.toList ++ [key] ≠ [] := by simp
    obtain ⟨before, victim, after, hlist, hleast⟩ :=
      exists_firstLeast (creditAt fifo.entries) hne
    have hswept := swept_enterMain hqueues hmain hnot hroom hlist hleast
    have hmem : victim ∈ (fifo.pushMain key).main.toList := by
      rw [toList_pushMain hmain hnot, hlist]
      exact List.mem_append_right before List.mem_cons_self
    refine ⟨{victim}, Set.subsingleton_singleton, ?_, ?_⟩
    · rw [Set.singleton_subset_iff]
      exact (hqueues.mem_iff victim).2 (.inr hmem)
    · ext other
      exact hswept.mem_entries

end Sets

variable [LawfulBEq κ] [HashMaterial κ]

/-! ## New keys -/

/-- What the admission of a new key can do to the tracked keys and to the ghost queue: the key is
tracked, some keys have gone, and their fingerprints are all that is new in the ghost queue. -/
structure Admits (fifo after : S3Fifo κ) (key : κ) (gone : Set κ) : Prop where
  gone_subsingleton : gone.Subsingleton
  gone_subset : gone ⊆ insert key fifo.tracked
  tracked_eq : after.tracked = insert key fifo.tracked \ gone
  remembered : ∀ print, after.ghosts.contains print = true →
    (fifo.ghosts.contains print = true ∧ print ≠ fingerprint key) ∨ print ∈ fingerprint '' gone

theorem tracked_restore (fifo : S3Fifo κ) (key : κ) :
    (fifo.restore key).tracked = insert key fifo.tracked := tracked_insert

omit [HashMaterial κ] in
theorem tracked_introduce (fifo : S3Fifo κ) (key : κ) :
    (fifo.introduce key).tracked = insert key fifo.tracked := tracked_insert

theorem Valid.admits_remembered (h : fifo.Valid) (hnew : key ∉ fifo.entries)
    (hghost : fifo.ghosts.contains (fingerprint key) = true) :
    ∃ gone, Admits fifo (fifo.enroll key) key gone := by
  obtain ⟨gone, hsingle, hsub, htracked⟩ := tracked_enterMain (h.queues_restore hnew)
    h.queues.valid_main (h.not_mem_queues hnew).2
  rw [tracked_restore] at hsub htracked
  refine ⟨gone, hsingle, hsub, ?_, ?_⟩
  · rw [enroll_of_ghost hghost, htracked]
  · intro print hprint
    rw [h.ghosts_enroll hnew hghost, GhostQueue.contains_erase, Bool.and_eq_true,
      Bool.not_eq_true', beq_eq_false_iff_ne] at hprint
    exact .inl ⟨hprint.2, hprint.1.symm⟩

/-- The key that leaves the small queue for a new one, which may be the new one itself, is tracked
no more or enters the main queue. -/
theorem Valid.admits_leaveSmall (h : fifo.Valid) (hnew : key ∉ fifo.entries)
    (hghost : fifo.ghosts.contains (fingerprint key) = false) {oldest : κ}
    (hmem : oldest ∈ (fifo.introduce key).small.toList) :
    ∃ gone, Admits fifo ((fifo.introduce key).leaveSmall oldest) key gone := by
  have hqueues := h.queues_introduce hnew
  have hkept {print : UInt64} (hprint : fifo.ghosts.contains print = true) :
      print ≠ fingerprint key := by
    rintro rfl
    rw [hghost] at hprint
    cases hprint
  obtain ⟨entry, hentry⟩ := hqueues.entry_of_mem (.inl hmem)
  rw [leaveSmall_of_entry hentry]
  split_ifs with hzero
  · refine ⟨{oldest}, Set.subsingleton_singleton, ?_, ?_, ?_⟩
    · rw [Set.singleton_subset_iff, ← tracked_introduce]
      exact (hqueues.mem_iff oldest).2 (.inl hmem)
    · rw [← tracked_introduce]
      exact tracked_erase
    · intro print hprint
      rw [Set.image_singleton, Set.mem_singleton_iff]
      rcases GhostQueue.contains_of_contains_record hprint with heq | hbefore
      · exact .inr heq
      · exact .inl ⟨hbefore, hkept hbefore⟩
  · have hnot : oldest ∉ ((fifo.introduce key).pullSmall oldest).main.toList :=
      hqueues.small_main oldest hmem
    have hpushed : Queues (((fifo.introduce key).pullSmall oldest).pushMain oldest).entries
        (((fifo.introduce key).pullSmall oldest).pushMain oldest).small
        (((fifo.introduce key).pullSmall oldest).pushMain oldest).main := hqueues.graduate hmem
    have htracked : ((fifo.introduce key).pullSmall oldest).tracked = insert key fifo.tracked :=
      tracked_introduce fifo key
    obtain ⟨gone, hsingle, hsub, heq⟩ := tracked_enterMain hpushed hqueues.valid_main hnot
    rw [htracked] at hsub heq
    refine ⟨gone, hsingle, hsub, heq, ?_⟩
    intro print hprint
    rw [ghosts_enterMain hpushed hqueues.valid_main] at hprint
    exact .inl ⟨hprint, hkept hprint⟩

theorem Valid.admits_unknown (h : fifo.Valid) (hnew : key ∉ fifo.entries)
    (hghost : fifo.ghosts.contains (fingerprint key) = false) :
    ∃ gone, Admits fifo (fifo.enroll key) key gone := by
  rw [h.enroll_unknown hnew hghost]
  split_ifs
  · refine ⟨∅, Set.subsingleton_empty, Set.empty_subset _, ?_, ?_⟩
    · rw [tracked_introduce, Set.sdiff_empty]
    · intro print hprint
      refine .inl ⟨hprint, ?_⟩
      rintro rfl
      exact Bool.false_ne_true (hghost.symm.trans hprint)
  · apply h.admits_leaveSmall hnew hghost
    apply List.mem_of_getLast?
    rw [h.toList_introduce hnew, List.getLast?_cons]
    rfl

theorem Valid.admits (h : fifo.Valid) (hnew : key ∉ fifo.entries) :
    ∃ gone, Admits fifo (fifo.enroll key) key gone := by
  cases hghost : fifo.ghosts.contains (fingerprint key) with
  | true => exact h.admits_remembered hnew hghost
  | false => exact h.admits_unknown hnew hghost

/-! ## Other calls -/

/-- The same keys are in the same places, and the same fingerprints are remembered. -/
structure SamePlaces (fifo after : S3Fifo κ) : Prop where
  tracked_eq : after.tracked = fifo.tracked
  small_eq : after.small = fifo.small
  main_eq : after.main = fifo.main
  ghosts_eq : after.ghosts = fifo.ghosts

omit [HashMaterial κ] in
theorem samePlaces_touch {entry : S3FifoEntry} (hentry : fifo.entries[key]? = some entry) :
    SamePlaces fifo (fifo.advance.touch key entry) := by
  refine ⟨?_, rfl, rfl, rfl⟩
  have hmem : key ∈ fifo.tracked := mem_of_getElem? hentry
  exact tracked_insert.trans (Set.insert_eq_of_mem hmem)

omit [LawfulBEq κ] [HashMaterial κ] in
theorem samePlaces_advance (fifo : S3Fifo κ) : SamePlaces fifo fifo.advance :=
  ⟨rfl, rfl, rfl, rfl⟩

omit [HashMaterial κ] in
theorem samePlaces_get (fifo : S3Fifo κ) (key : κ) : SamePlaces fifo (fifo.get key).2 := by
  unfold get
  dsimp only
  cases hentry : fifo.advance.entry? key with
  | none => exact samePlaces_advance fifo
  | some entry => exact samePlaces_touch hentry

theorem samePlaces_put_of_tracked (hmem : key ∈ fifo.tracked) :
    SamePlaces fifo (fifo.put key).2 := by
  obtain ⟨entry, hentry⟩ := mem_iff_exists_getElem?.1 hmem
  have hlookup : fifo.advance.entry? key = some entry := hentry
  unfold put
  split_ifs
  · exact ⟨rfl, rfl, rfl, rfl⟩
  · simp only [hlookup]
    exact samePlaces_touch hentry

/-! ## Tracked keys are not remembered -/

/-- Only keys in use are tracked, and the fingerprint of a tracked key is not remembered. -/
structure Exclusive (used : Set κ) (fifo : S3Fifo κ) : Prop where
  valid : fifo.Valid
  tracked_subset : fifo.tracked ⊆ used
  not_remembered : ∀ key ∈ fifo.tracked, fifo.ghosts.contains (fingerprint key) = false

variable {used : Set κ}

omit [LawfulBEq κ] in
theorem Exclusive.of_samePlaces {after : S3Fifo κ} (h : Exclusive used fifo) (hvalid : after.Valid)
    (hsame : SamePlaces fifo after) : Exclusive used after := by
  refine ⟨hvalid, ?_, ?_⟩
  · rw [hsame.tracked_eq]
    exact h.tracked_subset
  · rw [hsame.tracked_eq, hsame.ghosts_eq]
    exact h.not_remembered

omit [LawfulBEq κ] in
/-- A fingerprint that is new in the ghost queue is that of a key that has gone, and no other key
in use has the same. -/
theorem Exclusive.of_admits {after : S3Fifo κ} {gone : Set κ} (hinj : used.InjOn fingerprint)
    (h : Exclusive used fifo) (hkey : key ∈ used) (hvalid : after.Valid)
    (hadmits : Admits fifo after key gone) : Exclusive used after := by
  have hsub : insert key fifo.tracked ⊆ used := Set.insert_subset hkey h.tracked_subset
  refine ⟨hvalid, ?_, ?_⟩
  · rw [hadmits.tracked_eq]
    exact Set.sdiff_subset.trans hsub
  · intro other hother
    rw [hadmits.tracked_eq] at hother
    obtain ⟨hmem, hnot⟩ := hother
    rw [← Bool.not_eq_true]
    intro hprint
    rcases hadmits.remembered _ hprint with ⟨hbefore, hne⟩ | ⟨victim, hvictim, heq⟩
    · rcases hmem with rfl | hmem
      · exact hne rfl
      · exact Bool.false_ne_true ((h.not_remembered other hmem).symm.trans hbefore)
    · have hsame := hinj (hsub (hadmits.gone_subset hvictim)) (hsub hmem) heq
      exact hnot (hsame ▸ hvictim)

theorem Exclusive.serve (hinj : used.InjOn fingerprint) (h : Exclusive used fifo) {call : Call κ}
    (hcall : call.key ∈ used) : Exclusive used (S3Fifo.serve fifo call).2 := by
  cases call with
  | get key => exact h.of_samePlaces (h.valid.get key) (samePlaces_get fifo key)
  | put key =>
    change Exclusive used (fifo.put key).2
    by_cases hmem : key ∈ fifo.tracked
    · exact h.of_samePlaces (h.valid.put key) (samePlaces_put_of_tracked hmem)
    · rcases Nat.eq_zero_or_pos fifo.capacity with hzero | hpos
      · rw [put, if_pos hzero]
        exact h
      · have hnew : fifo.entries[key]? = none := Std.HashMap.getElem?_eq_none hmem
        obtain ⟨gone, hadmits⟩ := h.valid.advance.admits hmem
        have hadvanced := h.of_samePlaces h.valid.advance (samePlaces_advance fifo)
        rw [put_of_new hpos hnew]
        exact hadvanced.of_admits hinj hcall (h.valid.advance.enroll hmem) hadmits

theorem Exclusive.run (hinj : used.InjOn fingerprint) (h : Exclusive used fifo)
    {calls : List (Call κ)} (hcalls : ∀ call ∈ calls, call.key ∈ used) :
    Exclusive used (S3Fifo.serve.run fifo calls) := by
  induction calls generalizing fifo with
  | nil => exact h
  | cons call calls ih =>
    rw [List.forall_mem_cons] at hcalls
    exact ih (h.serve hinj hcalls.1) hcalls.2

/-! ## One place for each key -/

/-- Each tracked key is in one queue, once and with a bounded credit, and not remembered besides;
the queues fit. A write of a new key takes out at most one key; nothing else moves any. -/
structure OnePlace (fifo : S3Fifo κ) : Prop where
  not_remembered : ∀ key ∈ fifo.tracked, fifo.ghosts.contains (fingerprint key) = false
  count_eq_one : ∀ key ∈ fifo.tracked,
    fifo.small.toList.count key + fifo.main.toList.count key = 1
  frequency_le : ∀ key, ∀ frequency ∈ fifo.frequency? key, frequency ≤ 3
  small_le : fifo.small.length ≤ fifo.smallQuota
  main_le : fifo.main.length ≤ fifo.mainQuota
  put_of_new : ∀ key ∉ fifo.tracked, ∃ gone : Set κ, gone.Subsingleton ∧
    (fifo.put key).2.tracked = insert key fifo.tracked \ gone
  put_of_tracked : ∀ key ∈ fifo.tracked, SamePlaces fifo (fifo.put key).2
  get : ∀ key, SamePlaces fifo (fifo.get key).2

omit [HashMaterial κ] in
theorem Queues.count_eq_one (h : Queues fifo.entries fifo.small fifo.main)
    (hmem : key ∈ fifo.tracked) :
    fifo.small.toList.count key + fifo.main.toList.count key = 1 := by
  rcases (h.mem_iff key).1 hmem with hsmall | hmain
  · have hone := List.count_eq_one_of_mem h.valid_small.nodup_toList hsmall
    have hzero := List.count_eq_zero.2 (h.small_main key hsmall)
    omega
  · have hone := List.count_eq_one_of_mem h.valid_main.nodup_toList hmain
    have hzero := List.count_eq_zero.2 (h.small_main.symm key hmain)
    omega

theorem Valid.tracked_put (h : fifo.Valid) (hnew : key ∉ fifo.tracked) :
    ∃ gone : Set κ, gone.Subsingleton ∧
      (fifo.put key).2.tracked = insert key fifo.tracked \ gone := by
  rcases Nat.eq_zero_or_pos fifo.capacity with hzero | hpos
  · refine ⟨{key}, Set.subsingleton_singleton, ?_⟩
    rw [S3Fifo.put, if_pos hzero, Set.insert_sdiff_self_of_notMem hnew]
  · obtain ⟨gone, hadmits⟩ := h.advance.admits hnew
    refine ⟨gone, hadmits.gone_subsingleton, ?_⟩
    rw [S3Fifo.put_of_new hpos (Std.HashMap.getElem?_eq_none hnew)]
    exact hadmits.tracked_eq

variable {capacity : Nat} {smallRatio ghostRatio : Float}

/-- In a run whose keys have distinct fingerprints every key is in one place at most. -/
theorem onePlace_of_run {start : S3Fifo κ}
    (hstart : create capacity smallRatio ghostRatio = .ok start) {calls : List (Call κ)}
    (hinj : Set.InjOn fingerprint {key : κ | ∃ call ∈ calls, call.key = key}) :
    OnePlace (serve.run start calls) := by
  have hexclusive : Exclusive {key : κ | ∃ call ∈ calls, call.key = key} start := by
    have hempty (key : κ) : key ∉ start.tracked := by
      rw [(create_eq hstart).2]
      exact Std.HashMap.not_mem_empty
    refine ⟨(valid_create hstart).1, ?_, ?_⟩
    · exact fun key hmem ↦ absurd hmem (hempty key)
    · exact fun key hmem ↦ absurd hmem (hempty key)
  have hrun := hexclusive.run hinj fun call hcall ↦ ⟨call, hcall, rfl⟩
  have hqueues := hrun.valid.queues
  refine {
    not_remembered := hrun.not_remembered
    count_eq_one := fun key hmem ↦ hqueues.count_eq_one hmem
    frequency_le := ?_
    small_le := hrun.valid.small_le
    main_le := hrun.valid.main_le
    put_of_new := fun key hnew ↦ hrun.valid.tracked_put hnew
    put_of_tracked := fun key hmem ↦ samePlaces_put_of_tracked hmem
    get := samePlaces_get _ }
  intro key frequency hfrequency
  obtain ⟨entry, hentry, rfl⟩ := Option.map_eq_some_iff.1 hfrequency
  exact hqueues.frequency_le key entry hentry

/-- Keys 1 and 2 have different fingerprints. -/
theorem onePlace_of_run_narrow :
    create 2 0.5 0.5 = .ok (ofQuotas 1 1 1 : S3Fifo UInt64) ∧
      Set.InjOn fingerprint {key : UInt64 | ∃ call ∈ [Call.put 1, .put 2, .put 1], call.key = key} ∧
      OnePlace (narrow [.put 1, .put 2, .put 1]) := by
  have hinj : Set.InjOn fingerprint
      {key : UInt64 | ∃ call ∈ [Call.put 1, .put 2, .put 1], call.key = key} := by
    have hne : fingerprint (1 : UInt64) ≠ fingerprint (2 : UInt64) := by decide
    have hkeys {key : UInt64} (hkey : ∃ call ∈ [Call.put 1, .put 2, .put 1], call.key = key) :
        key = 1 ∨ key = 2 := by
      obtain ⟨call, hcall, rfl⟩ := hkey
      simp only [List.mem_cons, List.not_mem_nil, or_false] at hcall
      rcases hcall with rfl | rfl | rfl
      · exact .inl rfl
      · exact .inr rfl
      · exact .inl rfl
    intro first hfirst second hsecond heq
    rcases hkeys hfirst with rfl | rfl <;> rcases hkeys hsecond with rfl | rfl
    · rfl
    · exact absurd heq hne
    · exact absurd heq.symm hne
    · rfl
  exact ⟨create_half, hinj, onePlace_of_run create_half hinj⟩

end KeyHeat.S3Fifo

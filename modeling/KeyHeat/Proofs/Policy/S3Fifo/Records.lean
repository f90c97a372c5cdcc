import KeyHeat.Proofs.Hash.Mix
import KeyHeat.Proofs.Policy.Accesses
import KeyHeat.Proofs.Policy.S3Fifo.Exclusion

/-!
# What the ghost queue of the three-queue policy remembers

A record is made when a key leaves the small queue without an access to its credit, and only then.
As long as the fingerprints of the keys in use are distinct, the record that a key finds on its
return was made when that very key left, and has been live ever since. No two words have the same
fingerprint, so a policy for words never takes one key for another.
-/

namespace KeyHeat.S3Fifo

variable {κ : Type} [BEq κ] [Hashable κ] [HashMaterial κ] {fifo : S3Fifo κ} {key : κ}

/-! ## The record of an eviction -/

/-- The fingerprint of the key has a live record with this stamp. -/
def Remembers (fifo : S3Fifo κ) (key : κ) (stamp : Nat) : Prop :=
  fifo.ghosts.live[fingerprint key]? = some stamp

/-- The write of a new key finds the small queue full, and `key`, the oldest there, leaves it for
good as it has no access to its credit. -/
structure Retires (fifo : S3Fifo κ) (newcomer key : κ) : Prop where
  untracked : newcomer ∉ fifo.tracked
  unknown : fifo.ghosts.contains (fingerprint newcomer) = false
  full : fifo.smallQuota ≤ fifo.small.length
  oldest : (newcomer :: fifo.small.toList).getLast? = some key
  idle : (fifo.advance.introduce newcomer).frequency? key = some 0
  put_eq : (fifo.put newcomer).2 = (fifo.advance.introduce newcomer).retire key

section Steps

variable [LawfulBEq κ] {print : UInt64} {stamp : Nat}

/-- A key that leaves the small queue makes no record but its own, and only if it leaves for
good. -/
theorem Queues.retire_of_leaveSmall (h : Queues fifo.entries fifo.small fifo.main)
    (hmem : key ∈ fifo.small.toList)
    (hlive : (fifo.leaveSmall key).ghosts.live[print]? = some stamp) :
    fifo.ghosts.live[print]? = some stamp ∨
      fifo.frequency? key = some 0 ∧ fifo.leaveSmall key = fifo.retire key ∧
        print = fingerprint key ∧ stamp = fifo.ghosts.nextStamp := by
  obtain ⟨entry, hentry⟩ := h.entry_of_mem (.inl hmem)
  rw [leaveSmall_of_entry hentry] at hlive ⊢
  split_ifs at hlive ⊢ with hidle
  · rcases GhostQueue.getElem?_of_record hlive with ⟨hprint, hstamp⟩ | hbefore
    · have hfrequency : fifo.frequency? key = some 0 := by
        rw [frequency?_eq, hentry, Option.map_some, hidle]
      exact .inr ⟨hfrequency, rfl, hprint, hstamp⟩
    · exact .inl hbefore
  · have hpushed : Queues ((fifo.pullSmall key).pushMain key).entries
        ((fifo.pullSmall key).pushMain key).small ((fifo.pullSmall key).pushMain key).main :=
      h.graduate hmem
    rw [ghosts_enterMain hpushed h.valid_main] at hlive
    exact .inl hlive

/-- The write of an unknown key makes no record but that of the key that it makes leave. -/
theorem Valid.retires_of_unknown (h : fifo.Valid) (hpos : 0 < fifo.capacity) {newcomer : κ}
    (hnew : newcomer ∉ fifo.tracked)
    (hghost : fifo.ghosts.contains (fingerprint newcomer) = false)
    (hlive : (fifo.put newcomer).2.ghosts.live[print]? = some stamp) :
    fifo.ghosts.live[print]? = some stamp ∨
      ∃ oldest, Retires fifo newcomer oldest ∧ print = fingerprint oldest ∧
        stamp = fifo.ghosts.nextStamp := by
  have hput : (fifo.put newcomer).2 = fifo.advance.enroll newcomer := by
    rw [put_of_new hpos (Std.HashMap.getElem?_eq_none hnew)]
  rw [h.advance.enroll_unknown hnew hghost] at hput
  rw [hput] at hlive
  split_ifs at hput hlive with hroom
  · exact .inl hlive
  · have holdest : (newcomer :: fifo.small.toList).getLast? =
        some (fifo.advance.oldestWith newcomer) := List.getLast?_cons
    have hmem : fifo.advance.oldestWith newcomer ∈
        (fifo.advance.introduce newcomer).small.toList := by
      rw [h.advance.toList_introduce hnew]
      exact List.mem_of_getLast? holdest
    apply ((h.advance.queues_introduce hnew).retire_of_leaveSmall hmem hlive).imp_right
    rintro ⟨hidle, hretired, hprint, hstamp⟩
    have hfull : fifo.smallQuota ≤ fifo.small.length := Nat.le_of_not_lt hroom
    exact ⟨_, ⟨hnew, hghost, hfull, holdest, hidle, hput.trans hretired⟩, hprint, hstamp⟩

/-- A live record was there before the call, or the call made it for a key that it made leave. -/
theorem Valid.retires_of_live (h : fifo.Valid) {call : Call κ}
    (hlive : (S3Fifo.serve fifo call).2.ghosts.live[print]? = some stamp) :
    fifo.ghosts.live[print]? = some stamp ∨
      ∃ newcomer oldest, call = .put newcomer ∧ Retires fifo newcomer oldest ∧
        print = fingerprint oldest ∧ stamp = fifo.ghosts.nextStamp := by
  cases call with
  | get key =>
    change (fifo.get key).2.ghosts.live[print]? = _ at hlive
    rw [(samePlaces_get fifo key).ghosts_eq] at hlive
    exact .inl hlive
  | put key =>
    change (fifo.put key).2.ghosts.live[print]? = _ at hlive
    by_cases hmem : key ∈ fifo.tracked
    · rw [(samePlaces_put_of_tracked hmem).ghosts_eq] at hlive
      exact .inl hlive
    rcases Nat.eq_zero_or_pos fifo.capacity with hzero | hpos
    · rw [S3Fifo.put, if_pos hzero] at hlive
      exact .inl hlive
    cases hghost : fifo.ghosts.contains (fingerprint key) with
    | true =>
      rw [S3Fifo.put_of_new hpos (Std.HashMap.getElem?_eq_none hmem)] at hlive
      dsimp only at hlive
      rw [h.advance.ghosts_enroll hmem hghost, GhostQueue.erase, Std.HashMap.getElem?_erase]
        at hlive
      split_ifs at hlive
      exact .inl hlive
    | false =>
      apply (h.retires_of_unknown hpos hmem hghost hlive).imp_right
      rintro ⟨oldest, hretires, hprint, hstamp⟩
      exact ⟨key, oldest, rfl, hretires, hprint, hstamp⟩

end Steps

/-! ## The history of a record -/

/-- After some calls the write of a new key made `key` leave the small queue for good. The record
that it made has been live since, and the key has not been tracked. -/
structure Recorded (start : S3Fifo κ) (before : List (Call κ)) (newcomer : κ)
    (stay : List (Call κ)) (key : κ) : Prop where
  retires : Retires (serve.run start before) newcomer key
  live : serve.Tenure (Remembers · key (serve.run start before).ghosts.nextStamp) start before
    (.put newcomer :: stay)
  untracked : ∀ first, first <+: stay →
    key ∉ (serve.run start (before ++ .put newcomer :: first)).tracked

variable {used : Set κ} {start : S3Fifo κ}

theorem Retires.mem_used {newcomer : κ} (h : Retires fifo newcomer key)
    (hexclusive : Exclusive used fifo) (hnewcomer : newcomer ∈ used) : key ∈ used := by
  rcases List.mem_cons.1 (List.mem_of_getLast? h.oldest) with rfl | hsmall
  · exact hnewcomer
  · exact hexclusive.tracked_subset ((hexclusive.valid.queues.mem_iff key).2 (.inl hsmall))

theorem Exclusive.not_tracked_of_remembers (h : Exclusive used fifo) {stamp : Nat}
    (hlive : fifo.Remembers key stamp) : key ∉ fifo.tracked := by
  intro htracked
  have hforgotten := h.not_remembered key htracked
  rw [GhostQueue.contains_iff_exists.2 ⟨stamp, hlive⟩] at hforgotten
  cases hforgotten

variable [LawfulBEq κ]

/-- The live record of a key was made when the key left. -/
theorem Exclusive.exists_recorded (hinj : used.InjOn fingerprint) (hstart : Exclusive used start)
    (hempty : ∀ print : UInt64, start.ghosts.live[print]? = none) {calls : List (Call κ)}
    (hcalls : ∀ call ∈ calls, call.key ∈ used) (hkey : key ∈ used)
    (hghost : (S3Fifo.serve.run start calls).ghosts.contains (fingerprint key) = true) :
    ∃ before newcomer stay, calls = before ++ .put newcomer :: stay ∧
      Recorded start before newcomer stay key := by
  obtain ⟨stamp, hlive⟩ := GhostQueue.contains_iff_exists.1 hghost
  have habsent : ¬start.Remembers key stamp :=
    fun hstamp ↦ Option.some_ne_none stamp (hstamp.symm.trans (hempty _))
  obtain ⟨before, call, stay, rfl, htenure⟩ :=
    S3Fifo.serve.exists_tenure_of_run (Remembers · key stamp) habsent hlive
  have hbefore : Exclusive used (S3Fifo.serve.run start before) :=
    hstart.run hinj fun call hcall ↦ hcalls call (List.mem_append_left _ hcall)
  have hmade := htenure.present [call] (List.prefix_append [call] stay) (List.cons_ne_nil _ _)
  rw [S3Fifo.serve.run_concat] at hmade
  obtain ⟨newcomer, oldest, rfl, hretires, hprint, rfl⟩ :=
    (hbefore.valid.retires_of_live hmade).resolve_left htenure.absent
  -- The fingerprint is that of the key that left, which was in use.
  have hnewcomer : newcomer ∈ used :=
    hcalls _ (List.mem_append_right before List.mem_cons_self)
  obtain rfl := hinj hkey (hretires.mem_used hbefore hnewcomer) hprint
  refine ⟨before, newcomer, stay, rfl, hretires, htenure, ?_⟩
  intro first hfirst
  have hprefix : Call.put newcomer :: first <+: .put newcomer :: stay :=
    (List.prefix_cons_inj _).2 hfirst
  have hsub : before ++ Call.put newcomer :: first ⊆ before ++ .put newcomer :: stay :=
    ((List.prefix_append_right_inj before).2 hprefix).subset
  have hthen := hstart.run hinj fun call hcall ↦ hcalls call (hsub hcall)
  exact hthen.not_tracked_of_remembers (htenure.present _ hprefix (List.cons_ne_nil _ _))

/-! ## The return of a key -/

/-- How the write of a new key goes after some calls. Without capacity it fails. A key that is not
remembered enters the small queue. A key that is remembered enters the main queue, and it was that
very key that left the small queue before. -/
inductive Enters (start : S3Fifo κ) (calls : List (Call κ)) (key : κ) : Prop where
  | refused (hzero : (serve.run start calls).capacity = 0)
    (hput : (serve.run start calls).put key = (.error .capacity, serve.run start calls))
  | unknown (hghost : (serve.run start calls).ghosts.contains (fingerprint key) = false)
    (hput : (serve.run start calls).put key =
      (.ok (), ((serve.run start calls).advance.introduce key).drainSmall))
  | remembered (hghost : (serve.run start calls).ghosts.contains (fingerprint key) = true)
    (hput : (serve.run start calls).put key =
      (.ok (), ((serve.run start calls).advance.restore key).enterMain key))
    (before : List (Call κ)) (newcomer : κ) (stay : List (Call κ))
    (hcalls : calls = before ++ .put newcomer :: stay)
    (hrecorded : Recorded start before newcomer stay key)

theorem exclusive_ofQuotas (smallQuota mainQuota ghostQuota : Nat) (used : Set κ) :
    Exclusive used (ofQuotas smallQuota mainQuota ghostQuota : S3Fifo κ) where
  valid := valid_ofQuotas smallQuota mainQuota ghostQuota
  tracked_subset _ hmem := absurd hmem Std.HashMap.not_mem_empty
  not_remembered _ hmem := absurd hmem Std.HashMap.not_mem_empty

/-- A key with a fingerprint of its own enters the main queue at once only when it returns. -/
theorem enters_of_run {capacity : Nat} {smallRatio ghostRatio : Float}
    (hstart : create capacity smallRatio ghostRatio = .ok start) (hinj : used.InjOn fingerprint)
    {calls : List (Call κ)} (hcalls : ∀ call ∈ calls, call.key ∈ used) (hkey : key ∈ used)
    (hnew : key ∉ (serve.run start calls).tracked) : Enters start calls key := by
  have hexclusive : Exclusive used start := by
    rw [(create_eq hstart).2]
    exact exclusive_ofQuotas _ _ _ used
  have hempty (print : UInt64) : start.ghosts.live[print]? = none := by
    rw [(create_eq hstart).2]
    exact Std.HashMap.getElem?_empty
  rcases Nat.eq_zero_or_pos (serve.run start calls).capacity with hzero | hpos
  · exact .refused hzero (by rw [put, if_pos hzero])
  have hput : (serve.run start calls).put key = (.ok (),
      if (serve.run start calls).ghosts.contains (fingerprint key)
        then ((serve.run start calls).advance.restore key).enterMain key
        else ((serve.run start calls).advance.introduce key).drainSmall) :=
    put_of_new hpos (Std.HashMap.getElem?_eq_none hnew)
  split_ifs at hput with hghost
  · obtain ⟨before, newcomer, stay, hsplit, hrecorded⟩ :=
      hexclusive.exists_recorded hinj hempty hcalls hkey hghost
    exact .remembered hghost hput before newcomer stay hsplit hrecorded
  · rw [Bool.not_eq_true] at hghost
    exact .unknown hghost hput

/-- Hashes of words under one seed do not collide, nor do their fingerprints, so a word enters the
main queue at once only if it left the small queue before and is remembered for that. -/
theorem words_enter_by_own_records :
    (∀ seed, Function.Bijective (seededHash seed : UInt64 → UInt64)) ∧
      Function.Bijective Hash.mix64 ∧ Function.Injective (fingerprint : UInt64 → UInt64) ∧
      ∀ (capacity : Nat) (smallRatio ghostRatio : Float) (start : S3Fifo UInt64),
        create capacity smallRatio ghostRatio = .ok start →
        ∀ (calls : List (Call UInt64)) (key : UInt64), key ∉ (serve.run start calls).tracked →
          Enters start calls key := by
  refine ⟨bijective_seededHash, Hash.bijective_mix64, injective_fingerprint, ?_⟩
  intro capacity smallRatio ghostRatio start hstart calls key hnew
  exact enters_of_run hstart injective_fingerprint.injOn (fun _ _ ↦ Set.mem_univ _)
    (Set.mem_univ key) hnew

/-- Key 1 left when key 2 was written, and is remembered when it returns. -/
theorem words_enter_by_own_records_narrow :
    create 2 0.5 0.5 = .ok (ofQuotas 1 1 1 : S3Fifo UInt64) ∧
      1 ∉ (serve.run (ofQuotas 1 1 1) [.put (1 : UInt64), .put 2]).tracked ∧
      ∃ before newcomer stay, [.put 1, .put 2] = before ++ Call.put newcomer :: stay ∧
        Recorded (ofQuotas 1 1 1) before newcomer stay (1 : UInt64) := by
  have hghosts : (narrow [.put 1]).ghosts = .empty 1 := by cbv
  have hkey : (narrow [.put 1]).entries[(2 : UInt64)]? = none := by cbv
  have hsmall : (narrow [.put 1]).small.toList = [1] := by cbv
  have hidle : (narrow [.put 1]).frequency? 1 = some 0 := by cbv
  obtain ⟨hnew, hremembered, -⟩ := narrow_put hghosts hkey hsmall hidle
  have huntracked : 1 ∉ (narrow [.put 1, .put 2]).tracked := not_mem_of_getElem? hnew
  refine ⟨create_half, huntracked, ?_⟩
  cases words_enter_by_own_records.2.2.2 2 0.5 0.5 _ create_half [.put 1, .put 2] 1 huntracked with
  | refused hzero =>
    have hcapacity : (narrow [.put 1, .put 2]).capacity = 2 :=
      congrArg (·.2.2) (quotas_narrow [.put 1, .put 2])
    exact absurd (hcapacity.symm.trans hzero) (by decide)
  | unknown hunknown => exact absurd (hremembered.symm.trans hunknown) (by decide)
  | remembered hghost hput before newcomer stay hcalls hrecorded =>
    exact ⟨before, newcomer, stay, hcalls, hrecorded⟩

end KeyHeat.S3Fifo

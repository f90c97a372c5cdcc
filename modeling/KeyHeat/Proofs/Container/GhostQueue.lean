import KeyHeat.Container.GhostQueue
import KeyHeat.Proofs.Container.KeyCount

/-!
# Ghost queues keep every live record queued once

Stamps rise along the queue, so no two entries are equal, and every live record is among them.
Forgetting the oldest record, dropping stale entries and recording keep that, and together they
keep the number of live records within the capacity.
-/

namespace KeyHeat.GhostQueue

/-- The queued entries have rising stamps, all given out already, and hold every live record. -/
structure Coherent (ghosts : GhostQueue) : Prop where
  sorted : ghosts.order.toList.Pairwise fun first second ↦ first.2 < second.2
  lt_nextStamp : ∀ entry ∈ ghosts.order.toList, entry.2 < ghosts.nextStamp
  queued : ∀ entry, isLive ghosts.live entry = true → entry ∈ ghosts.order.toList

/-- A coherent queue within its capacity. -/
structure Valid (ghosts : GhostQueue) : Prop extends Coherent ghosts where
  size_le : ghosts.size ≤ ghosts.capacity

theorem isLive_iff {live : Std.HashMap UInt64 Nat} {entry : UInt64 × Nat} :
    isLive live entry = true ↔ live[entry.1]? = some entry.2 := by
  simp [isLive]

/-- The live entries of the queue are the table of live records. -/
theorem Coherent.perm_live {ghosts : GhostQueue} (h : ghosts.Coherent) :
    (ghosts.order.toList.filter (isLive ghosts.live)).Perm ghosts.live.toList := by
  have hqueued : ghosts.order.toList.Nodup := by
    apply h.sorted.imp
    intro first second hlt heq
    rw [heq] at hlt
    exact Nat.lt_irrefl _ hlt
  have hlive : ghosts.live.toList.Nodup := by
    apply List.Pairwise.imp _ Std.HashMap.distinct_keys_toList
    intro first second hne heq
    simp [heq] at hne
  apply (List.perm_ext_iff_of_nodup (hqueued.filter _) hlive).2
  rintro ⟨fingerprint, stamp⟩
  rw [List.mem_filter, Std.HashMap.mem_toList_iff_getElem?_eq_some]
  constructor
  · intro hmem
    exact isLive_iff.1 hmem.2
  · intro hget
    have hentry : isLive ghosts.live (fingerprint, stamp) = true := isLive_iff.2 hget
    exact ⟨h.queued _ hentry, hentry⟩

theorem Valid.check_eq {ghosts : GhostQueue} (h : ghosts.Valid) : ghosts.check = .ok () := by
  have hqueued : (ghosts.order.toList.filter (isLive ghosts.live)).length = ghosts.size := by
    rw [h.perm_live.length_eq, Std.HashMap.length_toList]
    rfl
  simp [check, Nat.not_lt.2 h.size_le, hqueued, pure, Except.pure]

theorem valid_empty (capacity : Nat) : (empty capacity).Valid where
  sorted := List.Pairwise.nil
  lt_nextStamp entry hmem := absurd hmem List.not_mem_nil
  queued entry hlive := by simp [isLive, empty] at hlive
  size_le := by simp [size, empty]

/-! ## Forgetting -/

/-- Draining takes out the entries up to the first live one, whose record is forgotten; without a
live one nothing is left in the queue. -/
theorem drain_cases (live : Std.HashMap UInt64 Nat) (order : Fifo (UInt64 × Nat)) (fuel : Nat)
    (hfuel : order.toList.length ≤ fuel) :
    ((∀ entry ∈ order.toList, isLive live entry = false) ∧
        (forgetOldest.drain live order fuel).1.toList = [] ∧
        (forgetOldest.drain live order fuel).2 = live) ∨
      ∃ stale victim rest, order.toList = stale ++ victim :: rest ∧
        (∀ entry ∈ stale, isLive live entry = false) ∧ isLive live victim = true ∧
        (forgetOldest.drain live order fuel).1.toList = rest ∧
        (forgetOldest.drain live order fuel).2 = live.erase victim.1 := by
  induction fuel generalizing order with
  | zero =>
    rw [Nat.le_zero, List.length_eq_zero_iff] at hfuel
    simp [forgetOldest.drain, hfuel]
  | succ fuel ih =>
    rw [forgetOldest.drain, order.peek?_eq_head?]
    cases horder : order.toList with
    | nil => simp [horder]
    | cons entry rest =>
      rw [horder, List.length_cons] at hfuel
      have htail : order.tail.toList = rest := by simp [horder]
      cases hlive : isLive live entry with
      | true =>
        right
        simp only [List.head?_cons, hlive, if_true, htail]
        exact ⟨[], entry, rest, rfl, by simp, hlive, rfl, rfl⟩
      | false =>
        simp only [List.head?_cons, hlive, Bool.false_eq_true, if_false]
        rcases ih order.tail (by rw [htail]; omega) with
          ⟨hstale, hempty, hsame⟩ | ⟨stale, victim, rest', hsplit, hstale, hvictim, hrest, herase⟩
        · left
          rw [htail] at hstale
          exact ⟨List.forall_mem_cons.2 ⟨hlive, hstale⟩, hempty, hsame⟩
        · right
          rw [htail] at hsplit
          have hsplit' : entry :: rest = (entry :: stale) ++ victim :: rest' := by
            rw [hsplit, List.cons_append]
          exact ⟨entry :: stale, victim, rest', hsplit', List.forall_mem_cons.2 ⟨hlive, hstale⟩,
            hvictim, hrest, herase⟩

theorem forgetOldest_cases (ghosts : GhostQueue) :
    ((∀ entry ∈ ghosts.order.toList, isLive ghosts.live entry = false) ∧
        ghosts.forgetOldest.order.toList = [] ∧ ghosts.forgetOldest.live = ghosts.live) ∨
      ∃ stale victim rest, ghosts.order.toList = stale ++ victim :: rest ∧
        (∀ entry ∈ stale, isLive ghosts.live entry = false) ∧
        isLive ghosts.live victim = true ∧ ghosts.forgetOldest.order.toList = rest ∧
        ghosts.forgetOldest.live = ghosts.live.erase victim.1 :=
  drain_cases ghosts.live ghosts.order ghosts.order.length (Nat.le_of_eq ghosts.order.length_toList)

theorem Coherent.forgetOldest {ghosts : GhostQueue} (h : ghosts.Coherent) :
    ghosts.forgetOldest.Coherent := by
  rcases forgetOldest_cases ghosts with
    ⟨hstale, hempty, hsame⟩ | ⟨stale, victim, rest, hsplit, hstale, -, hrest, herase⟩
  · have hqueued (entry : UInt64 × Nat)
        (hentry : isLive ghosts.forgetOldest.live entry = true) :
        entry ∈ ghosts.forgetOldest.order.toList := by
      rw [hsame] at hentry
      rw [hstale entry (h.queued entry hentry)] at hentry
      cases hentry
    exact ⟨by rw [hempty]; exact List.Pairwise.nil, by simp [hempty], hqueued⟩
  · have hsub : ghosts.forgetOldest.order.toList.Sublist ghosts.order.toList := by
      rw [hsplit, hrest]
      exact (List.sublist_cons_self _ _).trans (List.sublist_append_right _ _)
    have hqueued (entry : UInt64 × Nat)
        (hentry : isLive ghosts.forgetOldest.live entry = true) :
        entry ∈ ghosts.forgetOldest.order.toList := by
      rw [herase, isLive_iff, Std.HashMap.getElem?_erase] at hentry
      obtain ⟨hne, hget⟩ : victim.1 ≠ entry.1 ∧ ghosts.live[entry.1]? = some entry.2 := by
        simpa using hentry
      have hlive := isLive_iff.2 hget
      have hmem := h.queued entry hlive
      rw [hsplit, List.mem_append, List.mem_cons] at hmem
      rw [hrest]
      rcases hmem with hmem | rfl | hmem
      · rw [hstale entry hmem] at hlive
        cases hlive
      · exact absurd rfl hne
      · exact hmem
    exact ⟨h.sorted.sublist hsub, fun entry hmem ↦ h.lt_nextStamp entry (hsub.subset hmem),
      hqueued⟩

theorem Coherent.size_forgetOldest {ghosts : GhostQueue} (h : ghosts.Coherent) :
    ghosts.forgetOldest.size = ghosts.size - 1 := by
  rcases forgetOldest_cases ghosts with
    ⟨hstale, -, hsame⟩ | ⟨stale, victim, rest, -, -, hvictim, -, herase⟩
  · have hsize : ghosts.live.size = 0 := by
      rw [← Std.HashMap.length_toList, ← h.perm_live.length_eq,
        List.filter_eq_nil_iff.2 (by simpa using hstale), List.length_nil]
    rw [size, size, hsame, hsize]
  · rw [size, herase]
    exact size_erase_of_getElem? (isLive_iff.1 hvictim)

theorem Coherent.shrink {ghosts : GhostQueue} (h : ghosts.Coherent) (excess : Nat) :
    (bound.shrink ghosts excess).Coherent ∧
      (bound.shrink ghosts excess).size = ghosts.size - excess ∧
      (bound.shrink ghosts excess).capacity = ghosts.capacity := by
  induction excess generalizing ghosts with
  | zero => exact ⟨h, rfl, rfl⟩
  | succ excess ih =>
    obtain ⟨hcoherent, hsize, hcapacity⟩ := ih h.forgetOldest
    rw [h.size_forgetOldest, Nat.sub_sub, Nat.add_comm] at hsize
    exact ⟨hcoherent, hsize, hcapacity⟩

theorem Coherent.bound {ghosts : GhostQueue} (h : ghosts.Coherent) : ghosts.bound.Valid := by
  obtain ⟨hcoherent, hsize, hcapacity⟩ := h.shrink (ghosts.size - ghosts.capacity)
  have hle : ghosts.bound.size ≤ ghosts.bound.capacity := by
    rw [GhostQueue.bound, hsize, hcapacity]
    omega
  exact ⟨hcoherent, hle⟩

theorem Valid.compact {ghosts : GhostQueue} (h : ghosts.Valid) : ghosts.compact.Valid := by
  unfold GhostQueue.compact
  split
  · refine ⟨⟨?_, ?_, ?_⟩, h.size_le⟩
    · rw [Fifo.toList_filter]
      exact h.sorted.filter _
    · intro entry hmem
      rw [Fifo.toList_filter] at hmem
      exact h.lt_nextStamp entry (List.mem_filter.1 hmem).1
    · intro entry hentry
      rw [Fifo.toList_filter]
      exact List.mem_filter.2 ⟨h.queued entry hentry, hentry⟩
  · exact h

/-! ## Recording -/

/-- The state with a record of a fingerprint that is stamped last. -/
def stamped (ghosts : GhostQueue) (fingerprint : UInt64) : GhostQueue :=
  { ghosts with
    order := ghosts.order.push (fingerprint, ghosts.nextStamp)
    live := ghosts.live.insert fingerprint ghosts.nextStamp
    nextStamp := ghosts.nextStamp + 1 }

theorem Coherent.stamped {ghosts : GhostQueue} (h : ghosts.Coherent) (fingerprint : UInt64) :
    (ghosts.stamped fingerprint).Coherent := by
  have hlist : (ghosts.stamped fingerprint).order.toList =
      ghosts.order.toList ++ [(fingerprint, ghosts.nextStamp)] := Fifo.toList_push _ _
  refine ⟨?_, ?_, ?_⟩
  · rw [hlist, List.pairwise_append]
    refine ⟨h.sorted, List.pairwise_singleton _ _, ?_⟩
    intro entry hmem last hlast
    rw [List.mem_singleton.1 hlast]
    exact h.lt_nextStamp entry hmem
  · intro entry hmem
    rw [hlist, List.mem_append, List.mem_singleton] at hmem
    rcases hmem with hmem | rfl
    · exact Nat.lt_succ_of_lt (h.lt_nextStamp entry hmem)
    · exact Nat.lt_succ_self _
  · intro entry hentry
    rw [GhostQueue.stamped, isLive_iff, Std.HashMap.getElem?_insert] at hentry
    rw [hlist, List.mem_append, List.mem_singleton]
    split_ifs at hentry with heq
    · right
      exact Prod.ext (beq_iff_eq.1 heq).symm (Option.some.inj hentry).symm
    · left
      exact h.queued entry (isLive_iff.2 hentry)

theorem Valid.record {ghosts : GhostQueue} (h : ghosts.Valid) (fingerprint : UInt64) :
    (ghosts.record fingerprint).Valid := by
  unfold GhostQueue.record
  split
  · exact h
  · exact (h.toCoherent.stamped fingerprint).bound.compact

theorem Valid.erase {ghosts : GhostQueue} (h : ghosts.Valid) (fingerprint : UInt64) :
    (ghosts.erase fingerprint).Valid := by
  have hqueued (entry : UInt64 × Nat) (hentry : isLive (ghosts.erase fingerprint).live entry) :
      entry ∈ ghosts.order.toList := by
    rw [GhostQueue.erase, isLive_iff, Std.HashMap.getElem?_erase] at hentry
    split_ifs at hentry
    exact h.queued entry (isLive_iff.2 hentry)
  exact ⟨⟨h.sorted, h.lt_nextStamp, hqueued⟩, Nat.le_trans Std.HashMap.size_erase_le h.size_le⟩

/-! ## Members -/

theorem record_eq (ghosts : GhostQueue) (fingerprint : UInt64) :
    ghosts.record fingerprint = if ghosts.capacity = 0 then ghosts
      else (ghosts.stamped fingerprint).bound.compact := rfl

theorem contains_erase (ghosts : GhostQueue) (fingerprint other : UInt64) :
    (ghosts.erase fingerprint).contains other =
      (!(fingerprint == other) && ghosts.contains other) :=
  Std.HashMap.contains_erase

/-- What is still live after the oldest record is forgotten was so before. -/
theorem getElem?_of_forgetOldest {ghosts : GhostQueue} {fingerprint : UInt64} {stamp : Nat}
    (h : ghosts.forgetOldest.live[fingerprint]? = some stamp) :
    ghosts.live[fingerprint]? = some stamp := by
  rcases forgetOldest_cases ghosts with ⟨-, -, hsame⟩ | ⟨stale, victim, rest, -, -, -, -, herase⟩
  · rwa [hsame] at h
  · rw [herase, Std.HashMap.getElem?_erase] at h
    split_ifs at h
    exact h

theorem getElem?_of_shrink {ghosts : GhostQueue} {fingerprint : UInt64} {stamp excess : Nat}
    (h : (bound.shrink ghosts excess).live[fingerprint]? = some stamp) :
    ghosts.live[fingerprint]? = some stamp := by
  induction excess generalizing ghosts with
  | zero => exact h
  | succ excess ih => exact getElem?_of_forgetOldest (ih h)

theorem live_compact (ghosts : GhostQueue) : ghosts.compact.live = ghosts.live := by
  unfold GhostQueue.compact
  split <;> rfl

/-- A live record is the new one, or one from before with the stamp that it had. -/
theorem getElem?_of_record {ghosts : GhostQueue} {fingerprint other : UInt64} {stamp : Nat}
    (h : (ghosts.record fingerprint).live[other]? = some stamp) :
    (other = fingerprint ∧ stamp = ghosts.nextStamp) ∨ ghosts.live[other]? = some stamp := by
  rw [record_eq] at h
  split_ifs at h
  · exact .inr h
  · rw [live_compact] at h
    have hstamped : (ghosts.stamped fingerprint).live[other]? = some stamp := getElem?_of_shrink h
    rw [GhostQueue.stamped, Std.HashMap.getElem?_insert] at hstamped
    split_ifs at hstamped with heq
    · exact .inl ⟨(beq_iff_eq.1 heq).symm, (Option.some.inj hstamped).symm⟩
    · exact .inr hstamped

theorem contains_iff_exists {ghosts : GhostQueue} {fingerprint : UInt64} :
    ghosts.contains fingerprint = true ↔ ∃ stamp, ghosts.live[fingerprint]? = some stamp := by
  rw [contains, Std.HashMap.contains_eq_isSome_getElem?, Option.isSome_iff_exists]

/-- A record adds no fingerprint but its own. -/
theorem contains_of_contains_record {ghosts : GhostQueue} {fingerprint other : UInt64}
    (h : (ghosts.record fingerprint).contains other = true) :
    other = fingerprint ∨ ghosts.contains other = true := by
  obtain ⟨stamp, hstamp⟩ := contains_iff_exists.1 h
  exact (getElem?_of_record hstamp).imp And.left fun hlive ↦ contains_iff_exists.2 ⟨stamp, hlive⟩

/-- A record for which there is room is remembered. -/
theorem contains_record_of_room {ghosts : GhostQueue} (hroom : ghosts.size < ghosts.capacity)
    (fingerprint : UInt64) : (ghosts.record fingerprint).contains fingerprint = true := by
  have hsize : (ghosts.stamped fingerprint).size ≤ ghosts.size + 1 :=
    Std.HashMap.size_insert_le
  have hbound : (ghosts.stamped fingerprint).bound = ghosts.stamped fingerprint := by
    have hfits : (ghosts.stamped fingerprint).size - (ghosts.stamped fingerprint).capacity = 0 := by
      change _ - ghosts.capacity = 0
      omega
    rw [bound, hfits]
    rfl
  rw [record_eq, if_neg (by omega), contains, live_compact, hbound]
  exact Std.HashMap.contains_insert_self

end KeyHeat.GhostQueue

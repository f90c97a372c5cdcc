import KeyHeat.Policy.SlidingWindow
import KeyHeat.Proofs.Container.KeyCount
import Mathlib.Algebra.BigOperators.Group.List.Lemmas
import Mathlib.Algebra.GroupWithZero.Nat
import Mathlib.Data.List.TakeWhile

/-!
# The counts of a time window are those of its queue

The table counts the queued accesses of each key, and the times in the queue rise while the clock
does. Hence the accesses that are too old are exactly a front part of the queue, which an access
drops and a query discounts, and both ways of asking for hot keys agree.
-/

namespace KeyHeat.SlidingWindow

variable {κ : Type} [BEq κ] [Hashable κ]

/-- The number of accesses to a key. -/
def tally (accesses : List (Nat × κ)) (key : κ) : Nat :=
  accesses.countP fun (_, other) ↦ other == key

/-- The table holds the number of accesses of each key that has any. -/
def Counted (counts : Std.HashMap κ Nat) (accesses : List (Nat × κ)) : Prop :=
  ∀ key : κ, counts[key]? = if tally accesses key = 0 then none else some (tally accesses key)

/-- The queue is counted and in the order of time, up to the present. -/
structure Valid (window : SlidingWindow κ) (now : Nat) : Prop where
  counted : Counted window.counts window.accesses.toList
  sorted : window.accesses.toList.Pairwise fun first second ↦ first.1 ≤ second.1
  le_now : ∀ access ∈ window.accesses.toList, access.1 ≤ now
  threshold_pos : 0 < window.threshold

theorem Valid.mono {window : SlidingWindow κ} {now later : Nat} (h : window.Valid now)
    (hle : now ≤ later) : window.Valid later where
  counted := h.counted
  sorted := h.sorted
  le_now access hmem := (h.le_now access hmem).trans hle
  threshold_pos := h.threshold_pos

omit [Hashable κ] in
theorem tally_append (first second : List (Nat × κ)) (key : κ) :
    tally (first ++ second) key = tally first key + tally second key := List.countP_append

omit [Hashable κ] in
theorem tally_cons (time : Nat) (other : κ) (accesses : List (Nat × κ)) (key : κ) :
    tally ((time, other) :: accesses) key =
      tally accesses key + if other == key then 1 else 0 := List.countP_cons

/-! ## Old accesses -/

omit [BEq κ] [Hashable κ] in
theorem isExpired_of_le {span now time time' : Nat} (hle : time ≤ time')
    (h : isExpired span now time' = true) : isExpired span now time = true := by
  simp only [isExpired, gt_iff_lt, decide_eq_true_eq] at *
  omega

omit [BEq κ] [Hashable κ] in
/-- Behind the first access that is young enough there is none that is too old. -/
theorem not_expired_of_mem_dropWhile {span now : Nat} {accesses : List (Nat × κ)}
    (hsorted : accesses.Pairwise fun first second ↦ first.1 ≤ second.1) {access : Nat × κ}
    (hmem : access ∈ accesses.dropWhile fun (time, _) ↦ isExpired span now time) :
    isExpired span now access.1 = false := by
  induction accesses with
  | nil => cases hmem
  | cons first rest ih =>
    rw [List.pairwise_cons] at hsorted
    rw [List.dropWhile_cons] at hmem
    split_ifs at hmem with hfirst
    · exact ih hsorted.2 hmem
    · rcases List.mem_cons.1 hmem with rfl | hrest
      · exact Bool.eq_false_iff.2 hfirst
      · exact Bool.eq_false_iff.2 fun hold ↦
          hfirst (isExpired_of_le (hsorted.1 access hrest) hold)

/-! ## The table -/

section Table

variable [LawfulBEq κ] {counts : Std.HashMap κ Nat} {accesses : List (Nat × κ)}

theorem Counted.getD_eq (h : Counted counts accesses) (key : κ) :
    counts.getD key 0 = tally accesses key := by
  rw [Std.HashMap.getD_eq_getD_getElem?, h]
  split_ifs with hzero
  · exact hzero.symm
  · rfl

theorem Counted.discount {time : Nat} {key : κ} (h : Counted counts ((time, key) :: accesses)) :
    Counted (discount counts key) accesses := by
  intro other
  have hother := h other
  rw [tally_cons] at hother
  rw [SlidingWindow.discount, Std.HashMap.getElem?_alter]
  by_cases heq : key = other
  · subst heq
    rw [beq_self_eq_true, if_pos rfl] at hother ⊢
    rw [hother, if_neg (Nat.succ_ne_zero _)]
    simp only [Nat.add_eq_right, Nat.add_sub_cancel]
  · have hne : (key == other) = false := by simpa using heq
    simpa only [hne, Bool.false_eq_true, if_false, Nat.add_zero] using hother

theorem Counted.add (h : Counted counts accesses) (time : Nat) (key : κ) :
    Counted (counts.alter key fun count? ↦ some (count?.getD 0 + 1))
      (accesses ++ [(time, key)]) := by
  intro other
  have htally : tally (accesses ++ [(time, key)]) other =
      tally accesses other + if key == other then 1 else 0 := by
    rw [tally_append, tally_cons]
    simp [tally]
  rw [htally, Std.HashMap.getElem?_alter]
  by_cases heq : key = other
  · subst heq
    rw [beq_self_eq_true, if_pos rfl, if_pos rfl, if_neg (Nat.succ_ne_zero _),
      ← Std.HashMap.getD_eq_getD_getElem?, h.getD_eq]
  · have hne : (key == other) = false := by simpa using heq
    simpa only [hne, Bool.false_eq_true, if_false, Nat.add_zero] using h other

/-- The counts of a list of accesses, taken one after the other. -/
theorem Counted.foldl (h : Counted counts accesses) (more : List (Nat × κ)) :
    Counted (more.foldl (fun counts (_, key) ↦
      counts.alter key fun count? ↦ some (count?.getD 0 + 1)) counts) (accesses ++ more) := by
  induction more generalizing counts accesses with
  | nil => simpa using h
  | cons access more ih =>
    obtain ⟨time, key⟩ := access
    simpa using ih (h.add time key)

omit [LawfulBEq κ] in
theorem counted_empty : Counted (∅ : Std.HashMap κ Nat) [] := by
  intro key
  simp [tally]

/-- Dropping old accesses leaves the others, still counted. -/
theorem Counted.drain {queue : Fifo (Nat × κ)} (h : Counted counts queue.toList) (span now : Nat)
    {fuel : Nat} (hfuel : queue.toList.length ≤ fuel) :
    (expire.drain span now queue counts fuel).1.toList =
        queue.toList.dropWhile (fun (time, _) ↦ isExpired span now time) ∧
      Counted (expire.drain span now queue counts fuel).2
        (queue.toList.dropWhile fun (time, _) ↦ isExpired span now time) := by
  induction fuel generalizing queue counts with
  | zero =>
    have hnil : queue.toList = [] := List.length_eq_zero_iff.1 (Nat.le_zero.1 hfuel)
    rw [hnil] at h ⊢
    exact ⟨hnil, h⟩
  | succ fuel ih =>
    rw [expire.drain, Fifo.peek?_eq_head?]
    have htail := queue.toList_tail
    cases hqueue : queue.toList with
    | nil =>
      rw [hqueue] at h
      exact ⟨hqueue, h⟩
    | cons first rest =>
      obtain ⟨time, key⟩ := first
      rw [hqueue] at h htail hfuel
      rw [List.tail_cons] at htail
      simp only [List.head?_cons, List.dropWhile_cons]
      split_ifs with hold
      · rw [← htail] at h ⊢
        apply ih h.discount
        rw [htail]
        exact Nat.le_of_succ_le_succ hfuel
      · exact ⟨hqueue, h⟩

omit [Hashable κ] in
/-- Over distinct keys that include every key accessed, the tallies add up to the accesses. -/
theorem sum_tally {keys : List κ} (hnodup : keys.Nodup)
    (hmem : ∀ access ∈ accesses, access.2 ∈ keys) :
    (keys.map (tally accesses)).sum = accesses.length := by
  classical
  induction accesses with
  | nil =>
    change (keys.map fun _ ↦ 0).sum = 0
    simp
  | cons first rest ih =>
    obtain ⟨time, key⟩ := first
    have hkey : key ∈ keys := hmem (time, key) List.mem_cons_self
    have hrest : ∀ access ∈ rest, access.2 ∈ keys := by
      intro access hin
      exact hmem access (List.mem_cons_of_mem _ hin)
    have hone : (keys.map fun other ↦ if key == other then 1 else 0).sum = 1 := by
      rw [List.sum_map_eq_nsmul_single key _ fun other hne _ ↦ by simp [Ne.symm hne]]
      rw [beq_self_eq_true, if_pos rfl]
      rw [@List.count_eq_one_of_mem κ instBEqOfDecidableEq inferInstance _ _ hnodup hkey]
      rfl
    calc
      _ = (keys.map fun other ↦ tally rest other + if key == other then 1 else 0).sum := by
        congr 1
        apply List.map_congr_left
        intro other _
        exact tally_cons time key rest other
      _ = (keys.map (tally rest)).sum +
          (keys.map fun other ↦ if key == other then 1 else 0).sum := List.sum_map_add
      _ = rest.length + 1 := by rw [ih hrest, hone]

theorem Counted.mem_iff (h : Counted counts accesses) {key : κ} :
    key ∈ counts ↔ tally accesses key ≠ 0 := by
  rw [Std.HashMap.mem_iff_isSome_getElem?, h]
  split_ifs with hzero <;> simp [hzero]

omit [LawfulBEq κ] in
/-- An entry of the table is a key that was accessed, with the number of its accesses. -/
theorem Counted.entry_eq (h : Counted counts accesses) {key : κ} {count : Nat}
    (hget : counts[key]? = some count) : count = tally accesses key ∧ count ≠ 0 := by
  rw [h] at hget
  split_ifs at hget with hzero
  rw [← Option.some.inj hget]
  exact ⟨rfl, hzero⟩

omit [Hashable κ] in
theorem tally_ne_zero_iff {key : κ} :
    tally accesses key ≠ 0 ↔ ∃ access ∈ accesses, access.2 = key := by
  rw [tally, ← Nat.pos_iff_ne_zero, List.countP_pos_iff]
  simp only [beq_iff_eq]

theorem Counted.sum_eq (h : Counted counts accesses) :
    (counts.toList.map (·.2)).sum = accesses.length := by
  have hkeys : ∀ access ∈ accesses, access.2 ∈ counts.keys := by
    intro access hmem
    rw [Std.HashMap.mem_keys, h.mem_iff, tally_ne_zero_iff]
    exact ⟨access, hmem, rfl⟩
  calc
    _ = (counts.keys.map (tally accesses)).sum := by
      rw [← Std.HashMap.map_fst_toList_eq_keys, List.map_map]
      congr 1
      apply List.map_congr_left
      intro entry hmem
      exact (h.entry_eq (Std.HashMap.mem_toList_iff_getElem?_eq_some.1 hmem)).1
    _ = accesses.length := sum_tally Std.HashMap.nodup_keys hkeys

end Table

variable {window : SlidingWindow κ} {now : Nat}

/-- The queued accesses that are not too old. -/
def current (window : SlidingWindow κ) (now : Nat) : List (Nat × κ) :=
  window.accesses.toList.dropWhile fun (time, _) ↦ isExpired window.span now time

theorem expiredFront_append_current (window : SlidingWindow κ) (now : Nat) :
    window.expiredFront now ++ window.current now = window.accesses.toList :=
  List.takeWhile_append_dropWhile

/-- The keys of the young accesses, the latest first. -/
theorem Valid.recentKeys_eq (h : window.Valid now) (later : Nat) :
    window.recentKeys later =
      recentKeys.distinct ∅ ((window.current later).reverse.map (·.2)) := by
  have hold : (window.expiredFront later).reverse.takeWhile (fun (time, _) ↦
      !isExpired window.span later time) = [] := by
    rw [List.takeWhile_eq_nil_iff]
    intro hlength
    have hmem := List.getElem_mem hlength
    rw [List.mem_reverse] at hmem
    simpa using List.mem_takeWhile_imp hmem
  rw [recentKeys, Fifo.newestFirst_eq, ← window.expiredFront_append_current later,
    List.reverse_append, List.takeWhile_append_of_pos, hold, List.append_nil]
  intro access hmem
  rw [List.mem_reverse] at hmem
  simpa using not_expired_of_mem_dropWhile h.sorted hmem

/-! ## Accesses -/

theorem accesses_record (window : SlidingWindow κ) (now : Nat) (key : κ) :
    (window.record now key).accesses.toList =
      (window.expire now).accesses.toList ++ [(now, key)] := Fifo.toList_push _ _

theorem valid_create {span threshold : Nat} (h : create span threshold = .ok window) (now : Nat) :
    window.Valid now := by
  unfold create at h
  split_ifs at h with hzero
  cases h
  exact ⟨counted_empty, List.Pairwise.nil, fun _ hmem ↦ (List.not_mem_nil hmem).elim,
    Nat.pos_of_ne_zero hzero⟩

variable [LawfulBEq κ]

/-- The young accesses are what an expiry leaves in the queue. -/
theorem Valid.accesses_expire {before : Nat} (h : window.Valid before) (now : Nat) :
    (window.expire now).accesses.toList = window.current now :=
  (h.counted.drain window.span now (Nat.le_of_eq window.accesses.length_toList)).1

theorem Valid.expire {before : Nat} (h : window.Valid before) (hle : before ≤ now) :
    (window.expire now).Valid now := by
  obtain ⟨hqueue, hcounted⟩ :=
    h.counted.drain window.span now (Nat.le_of_eq window.accesses.length_toList)
  have hsub : (window.current now).Sublist window.accesses.toList := List.dropWhile_sublist _
  refine ⟨?_, ?_, ?_, h.threshold_pos⟩
  · rw [h.accesses_expire]
    exact hcounted
  · rw [h.accesses_expire]
    exact h.sorted.sublist hsub
  · rw [h.accesses_expire]
    intro access hmem
    exact (h.le_now access (hsub.subset hmem)).trans hle

theorem Valid.record {before : Nat} (h : window.Valid before) (hle : before ≤ now) (key : κ) :
    (window.record now key).Valid now := by
  have hexpire := h.expire hle
  refine ⟨?_, ?_, ?_, h.threshold_pos⟩
  · rw [accesses_record]
    exact hexpire.counted.add now key
  · rw [accesses_record, List.pairwise_append]
    refine ⟨hexpire.sorted, List.pairwise_singleton _ _, ?_⟩
    intro access hmem last hlast
    rw [List.mem_singleton.1 hlast]
    exact hexpire.le_now access hmem
  · rw [accesses_record]
    intro access hmem
    rcases List.mem_append.1 hmem with hold | hlast
    · exact hexpire.le_now access hold
    · rw [List.mem_singleton.1 hlast]

theorem Valid.access {before : Nat} (h : window.Valid before) (hle : before ≤ now) (key : κ) :
    (window.access now key).2.Valid now := h.record hle key

/-! ## Reports -/

theorem Valid.check_eq (h : window.Valid now) : window.check = .ok () := by
  have hsum : window.counts.fold (fun total _ count ↦ total + count) 0 = window.queued := by
    calc
      _ = (window.counts.toList.map (·.2)).sum := by
        rw [Std.HashMap.fold_eq_foldl_toList, List.sum_eq_foldl, List.foldl_map]
      _ = window.accesses.toList.length := h.counted.sum_eq
      _ = window.queued := window.accesses.length_toList
  have hzero : window.counts.values.any (· == 0) = false := by
    rw [values_eq, List.any_map, List.any_eq_false]
    intro entry hmem
    have hentry := h.counted.entry_eq (Std.HashMap.mem_toList_iff_getElem?_eq_some.1 hmem)
    simpa using hentry.2
  simp [check, hsum, hzero, pure, Except.pure]

theorem Valid.countInWindow_eq (h : window.Valid now) (later : Nat) (key : κ) :
    window.countInWindow later key = tally (window.current later) key := by
  rw [countInWindow, h.counted.getD_eq, ← window.expiredFront_append_current later, tally_append]
  exact Nat.add_sub_cancel_left _ _

theorem mem_distinct {keys : List κ} {seen : Std.HashMap κ Unit} {key : κ} :
    key ∈ recentKeys.distinct seen keys ↔ key ∈ keys ∧ key ∉ seen := by
  induction keys generalizing seen with
  | nil => simp [recentKeys.distinct]
  | cons first rest ih =>
    rw [recentKeys.distinct]
    split_ifs with hseen
    · rw [ih, List.mem_cons]
      constructor
      · rintro ⟨hmem, hnot⟩
        exact ⟨.inr hmem, hnot⟩
      · rintro ⟨rfl | hmem, hnot⟩
        · exact absurd (Std.HashMap.contains_iff_mem.1 hseen) hnot
        · exact ⟨hmem, hnot⟩
    · rw [List.mem_cons, ih, List.mem_cons, Std.HashMap.mem_insert, beq_iff_eq]
      rw [Bool.not_eq_true, ← Bool.not_eq_true, Std.HashMap.contains_iff_mem] at hseen
      by_cases hkey : key = first
      · simp [hkey, hseen]
      · simp [hkey, Ne.symm hkey]

theorem nodup_distinct (keys : List κ) (seen : Std.HashMap κ Unit) :
    (recentKeys.distinct seen keys).Nodup := by
  induction keys generalizing seen with
  | nil => exact List.nodup_nil
  | cons first rest ih =>
    rw [recentKeys.distinct]
    split_ifs
    · exact ih seen
    · rw [List.nodup_cons, mem_distinct]
      exact ⟨fun h ↦ h.2 (Std.HashMap.mem_insert_self), ih _⟩

theorem nodup_hotKeys (window : SlidingWindow κ) (now : Nat) : (window.hotKeys now).Nodup :=
  (nodup_distinct _ _).filter _

/-- Both ways of counting discount the same old accesses. -/
theorem Valid.hotKeys_eq (h : window.Valid now) (later : Nat) :
    window.hotKeys later =
      (recentKeys.distinct ∅ ((window.current later).reverse.map (·.2))).filter fun key ↦
        window.threshold ≤ tally (window.current later) key := by
  have hstale := (counted_empty (κ := κ)).foldl (window.expiredFront later)
  rw [List.nil_append] at hstale
  rw [hotKeys, h.recentKeys_eq]
  apply List.filter_congr
  intro key _
  have hcount : window.counts.getD key 0 - tally (window.expiredFront later) key =
    window.countInWindow later key := rfl
  rw [hstale.getD_eq, hcount, h.countInWindow_eq]

/-- A key with enough young accesses is among the keys of the young accesses. -/
theorem Valid.mem_hotKeys (h : window.Valid now) {later : Nat} {key : κ} :
    key ∈ window.hotKeys later ↔ window.isHot later key = true := by
  rw [h.hotKeys_eq, List.mem_filter, isHot, h.countInWindow_eq, and_iff_right_iff_imp]
  intro hhot
  rw [decide_eq_true_eq] at hhot
  have htally : tally (window.current later) key ≠ 0 :=
    Nat.ne_of_gt (Nat.lt_of_lt_of_le h.threshold_pos hhot)
  obtain ⟨access, hmem, rfl⟩ := tally_ne_zero_iff.1 htally
  rw [mem_distinct]
  exact ⟨List.mem_map_of_mem (List.mem_reverse.2 hmem), by simp⟩

end KeyHeat.SlidingWindow

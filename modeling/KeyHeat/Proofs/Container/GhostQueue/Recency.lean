import KeyHeat.Proofs.Container.GhostQueue
import Mathlib.Data.List.Induction

/-!
# Ghost queues are bounded recency lists

Seen from outside, a ghost queue is a list of distinct fingerprints, the newest first: a record
moves its fingerprint to the front and drops the last one if there are too many, a removal deletes
its fingerprint. Queue entries that are not live do not show, so it makes no difference whether they
are taken out. Because they are, the queue has at most eight entries beyond twice the capacity.
-/

namespace KeyHeat.GhostQueue

variable {ghosts : GhostQueue} {fingerprint : UInt64}

/-! ## The list of live fingerprints -/

/-- The queued entries that are live, oldest first. -/
def liveEntries (ghosts : GhostQueue) : List (UInt64 × Nat) :=
  ghosts.order.toList.filter (isLive ghosts.live)

theorem toList_eq (ghosts : GhostQueue) :
    ghosts.toList = (ghosts.liveEntries.map (·.1)).reverse := by
  rw [toList, ghosts.order.newestFirst_eq, List.filter_reverse, List.map_reverse]
  rfl

theorem Coherent.perm_toList (h : ghosts.Coherent) : ghosts.toList.Perm ghosts.live.keys := by
  rw [toList_eq, ← Std.HashMap.map_fst_toList_eq_keys]
  exact (List.reverse_perm _).trans (h.perm_live.map _)

theorem Coherent.nodup_toList (h : ghosts.Coherent) : ghosts.toList.Nodup :=
  h.perm_toList.nodup_iff.2 Std.HashMap.nodup_keys

theorem Coherent.length_toList (h : ghosts.Coherent) : ghosts.toList.length = ghosts.size := by
  rw [h.perm_toList.length_eq, Std.HashMap.length_keys, size]

theorem Coherent.contains_iff (h : ghosts.Coherent) :
    ghosts.contains fingerprint = true ↔ fingerprint ∈ ghosts.toList := by
  rw [h.perm_toList.mem_iff, Std.HashMap.mem_keys]
  rfl

/-! ## Removals -/

theorem isLive_erase (live : Std.HashMap UInt64 Nat) (fingerprint : UInt64) (entry : UInt64 × Nat) :
    isLive (live.erase fingerprint) entry = (entry.1 != fingerprint && isLive live entry) := by
  rw [Bool.eq_iff_iff, Bool.and_eq_true, bne_iff_ne, isLive_iff, isLive_iff,
    Std.HashMap.getElem?_erase]
  by_cases heq : fingerprint = entry.1
  · simp [heq]
  · simp [heq, Ne.symm heq]

theorem Coherent.toList_erase (h : ghosts.Coherent) (fingerprint : UInt64) :
    (ghosts.erase fingerprint).toList = ghosts.toList.erase fingerprint := by
  have hentries : (ghosts.erase fingerprint).liveEntries =
      ghosts.liveEntries.filter fun entry ↦ entry.1 != fingerprint := by
    rw [liveEntries, liveEntries, List.filter_filter]
    apply List.filter_congr
    intro entry _
    exact isLive_erase ghosts.live fingerprint entry
  rw [h.nodup_toList.erase_eq_filter, toList_eq, toList_eq, hentries, List.filter_reverse,
    List.filter_map]
  rfl

/-! ## Records -/

/-- A new record makes the old one of its fingerprint stale. -/
theorem Coherent.liveEntries_stamped (h : ghosts.Coherent) (fingerprint : UInt64) :
    (ghosts.stamped fingerprint).liveEntries =
      (ghosts.erase fingerprint).liveEntries ++ [(fingerprint, ghosts.nextStamp)] := by
  have horder : (ghosts.stamped fingerprint).order.toList =
      ghosts.order.toList ++ [(fingerprint, ghosts.nextStamp)] := Fifo.toList_push _ _
  have hlive (entry : UInt64 × Nat) (hentry : entry ∈ ghosts.order.toList) :
      isLive (ghosts.stamped fingerprint).live entry =
        isLive (ghosts.erase fingerprint).live entry := by
    have hlt := h.lt_nextStamp entry hentry
    rw [Bool.eq_iff_iff, isLive_iff, isLive_iff, GhostQueue.stamped, erase,
      Std.HashMap.getElem?_insert, Std.HashMap.getElem?_erase]
    split_ifs
    · have hstamp : some ghosts.nextStamp ≠ some entry.2 :=
        fun heq ↦ hlt.ne' (Option.some.inj heq)
      exact iff_of_false hstamp not_false
    · rfl
  have hnew : isLive (ghosts.stamped fingerprint).live (fingerprint, ghosts.nextStamp) = true :=
    isLive_iff.2 Std.HashMap.getElem?_insert_self
  rw [liveEntries, liveEntries, horder, List.filter_append, List.filter_congr hlive,
    List.filter_cons_of_pos hnew]
  rfl

theorem Coherent.toList_stamped (h : ghosts.Coherent) (fingerprint : UInt64) :
    (ghosts.stamped fingerprint).toList = fingerprint :: ghosts.toList.erase fingerprint := by
  rw [← h.toList_erase, toList_eq, h.liveEntries_stamped, List.map_append, List.reverse_append,
    toList_eq]
  rfl

/-- Forgetting the oldest record drops the last fingerprint. -/
theorem Coherent.toList_forgetOldest (h : ghosts.Coherent) :
    ghosts.forgetOldest.toList = ghosts.toList.dropLast := by
  rcases forgetOldest_cases ghosts with
    ⟨hstale, hempty, -⟩ | ⟨stale, victim, rest, hsplit, hstale, hvictim, hrest, herase⟩
  · have hnone : ghosts.liveEntries = [] := List.filter_eq_nil_iff.2 (by simpa using hstale)
    have hnone' : ghosts.forgetOldest.liveEntries = [] := by
      rw [liveEntries, hempty, List.filter_nil]
    rw [toList_eq, toList_eq, hnone, hnone']
    rfl
  · have hentries : ghosts.liveEntries = victim :: rest.filter (isLive ghosts.live) := by
      rw [liveEntries, hsplit, List.filter_append, List.filter_eq_nil_iff.2 (by simpa using hstale),
        List.nil_append, List.filter_cons_of_pos hvictim]
    -- Live entries have different fingerprints, so the others are live still.
    have hnodup : (ghosts.liveEntries.map (·.1)).Nodup := by
      rw [← List.nodup_reverse, ← toList_eq]
      exact h.nodup_toList
    rw [hentries, List.map_cons, List.nodup_cons] at hnodup
    have hkept : ghosts.forgetOldest.liveEntries = rest.filter (isLive ghosts.live) := by
      rw [liveEntries, hrest, herase]
      apply List.filter_congr
      intro entry hentry
      rw [isLive_erase, Bool.and_eq_right_iff_imp, bne_iff_ne]
      intro hlive heq
      exact hnodup.1 (heq ▸ List.mem_map_of_mem (List.mem_filter.2 ⟨hentry, hlive⟩))
    rw [toList_eq, toList_eq, hentries, hkept, List.map_cons, List.reverse_cons,
      List.dropLast_concat]

theorem Coherent.toList_shrink (h : ghosts.Coherent) (excess : Nat) :
    (bound.shrink ghosts excess).toList =
      ghosts.toList.take (ghosts.toList.length - excess) := by
  induction excess generalizing ghosts with
  | zero => rw [Nat.sub_zero, List.take_length, bound.shrink]
  | succ excess ih =>
    rw [bound.shrink, ih h.forgetOldest, h.toList_forgetOldest, List.dropLast_eq_take,
      List.take_take, List.length_take]
    congr 1
    omega

theorem Coherent.toList_bound (h : ghosts.Coherent) :
    ghosts.bound.toList = ghosts.toList.take ghosts.capacity := by
  rw [GhostQueue.bound, h.toList_shrink, h.length_toList]
  rcases Nat.le_total ghosts.size ghosts.capacity with hle | hge
  · rw [Nat.sub_eq_zero_of_le hle, Nat.sub_zero, List.take_of_length_le h.length_toList.le,
      List.take_of_length_le (h.length_toList.trans_le hle)]
  · rw [Nat.sub_sub_self hge]

theorem Coherent.capacity_bound (h : ghosts.Coherent) : ghosts.bound.capacity = ghosts.capacity :=
  (h.shrink _).2.2

theorem capacity_compact (ghosts : GhostQueue) : ghosts.compact.capacity = ghosts.capacity := by
  unfold compact
  split_ifs <;> rfl

theorem toList_compact (ghosts : GhostQueue) : ghosts.compact.toList = ghosts.toList := by
  unfold compact
  split_ifs
  · simp [toList_eq, liveEntries]
  · rfl

/-- A compacted queue has at most eight entries beyond twice the capacity. -/
theorem Valid.length_compact_le (h : ghosts.Valid) :
    ghosts.compact.order.length ≤ 2 * ghosts.capacity + 8 := by
  have hsize := h.size_le
  unfold GhostQueue.compact
  split_ifs with hlong
  · have hlive : (ghosts.order.toList.filter (isLive ghosts.live)).length = ghosts.size := by
      rw [h.perm_live.length_eq, Std.HashMap.length_toList, size]
    rw [← Fifo.length_toList, Fifo.toList_filter, hlive]
    omega
  · omega

/-! ## The list that a queue stands for -/

/-- A request that changes what is remembered. -/
inductive Request where
  | record (fingerprint : UInt64)
  | remove (fingerprint : UInt64)
  deriving DecidableEq, Repr

def apply (ghosts : GhostQueue) : Request → GhostQueue
  | .record fingerprint => ghosts.record fingerprint
  | .remove fingerprint => (ghosts.remove fingerprint).2

/-- The queue after some requests, one after the other. -/
def run (ghosts : GhostQueue) (requests : List Request) : GhostQueue := requests.foldl apply ghosts

/-- What a request makes of a list of distinct fingerprints, the newest first. -/
def Request.recall (capacity : Nat) (list : List UInt64) : Request → List UInt64
  | record fingerprint =>
    if capacity = 0 then list
    else
      let moved := fingerprint :: list.erase fingerprint
      if capacity < moved.length then moved.dropLast else moved
  | remove fingerprint => list.erase fingerprint

/-- The fingerprints that are remembered after some requests, the newest first. -/
def recalled (capacity : Nat) (requests : List Request) : List UInt64 :=
  requests.foldl (Request.recall capacity) []

/-- A valid queue of the given capacity that stands for a list. -/
structure Holds (capacity : Nat) (list : List UInt64) (ghosts : GhostQueue) : Prop where
  valid : ghosts.Valid
  capacity_eq : ghosts.capacity = capacity
  toList_eq : ghosts.toList = list

variable {capacity : Nat} {list : List UInt64}

theorem holds_empty (capacity : Nat) : Holds capacity [] (empty capacity) :=
  ⟨valid_empty capacity, rfl, rfl⟩

namespace Holds

theorem size_eq (h : Holds capacity list ghosts) : ghosts.size = list.length := by
  rw [← h.toList_eq, h.valid.length_toList]

theorem length_le (h : Holds capacity list ghosts) : list.length ≤ capacity := by
  rw [← h.size_eq, ← h.capacity_eq]
  exact h.valid.size_le

theorem nodup (h : Holds capacity list ghosts) : list.Nodup :=
  h.toList_eq ▸ h.valid.nodup_toList

theorem contains_eq (h : Holds capacity list ghosts) (fingerprint : UInt64) :
    ghosts.contains fingerprint = decide (fingerprint ∈ list) := by
  rw [Bool.eq_iff_iff, decide_eq_true_iff, h.valid.contains_iff, h.toList_eq]

theorem compact (h : Holds capacity list ghosts) : Holds capacity list ghosts.compact :=
  ⟨h.valid.compact, (capacity_compact ghosts).trans h.capacity_eq,
    (toList_compact ghosts).trans h.toList_eq⟩

/-- Before it is compacted, the queue already stands for the list with the new record. -/
theorem bound_stamped (h : Holds capacity list ghosts) (hpos : 0 < capacity)
    (fingerprint : UInt64) :
    Holds capacity (Request.recall capacity list (.record fingerprint))
      (ghosts.stamped fingerprint).bound := by
  have hstamped := h.valid.toCoherent.stamped fingerprint
  have hlength : (fingerprint :: list.erase fingerprint).length ≤ capacity + 1 :=
    Nat.succ_le_succ (List.length_erase_le.trans h.length_le)
  have htake : (ghosts.stamped fingerprint).bound.toList =
      (fingerprint :: list.erase fingerprint).take capacity := by
    rw [hstamped.toList_bound, h.valid.toList_stamped, h.toList_eq]
    exact congrArg (List.take · _) h.capacity_eq
  refine ⟨hstamped.bound, hstamped.capacity_bound.trans h.capacity_eq, ?_⟩
  rw [htake, Request.recall, if_neg hpos.ne']
  dsimp only
  split_ifs with hlong
  · rw [List.dropLast_eq_take]
    congr 1
    omega
  · exact List.take_of_length_le (Nat.le_of_not_lt hlong)

theorem record (h : Holds capacity list ghosts) (fingerprint : UInt64) :
    Holds capacity (Request.recall capacity list (.record fingerprint))
      (ghosts.record fingerprint) := by
  rw [record_eq, h.capacity_eq]
  split_ifs with hzero
  · rwa [Request.recall, if_pos hzero]
  · exact (h.bound_stamped (Nat.pos_of_ne_zero hzero) fingerprint).compact

theorem erase (h : Holds capacity list ghosts) (fingerprint : UInt64) :
    Holds capacity (list.erase fingerprint) (ghosts.erase fingerprint) := by
  refine ⟨h.valid.erase fingerprint, h.capacity_eq, ?_⟩
  rw [h.valid.toList_erase, h.toList_eq]

theorem apply (h : Holds capacity list ghosts) (request : Request) :
    Holds capacity (request.recall capacity list) (ghosts.apply request) := by
  cases request with
  | record fingerprint => exact h.record fingerprint
  | remove fingerprint => exact h.erase fingerprint

theorem run (h : Holds capacity list ghosts) (requests : List Request) :
    Holds capacity (requests.foldl (Request.recall capacity) list) (ghosts.run requests) := by
  induction requests generalizing list ghosts with
  | nil => exact h
  | cons request requests ih => exact ih (h.apply request)

end Holds

theorem holds_run (capacity : Nat) (requests : List Request) :
    Holds capacity (recalled capacity requests) ((empty capacity).run requests) :=
  (holds_empty capacity).run requests

/-! ## The answers -/

/-- Two queues that answer alike, now and after any further requests. -/
def Alike (first second : GhostQueue) : Prop :=
  ∀ later, (first.run later).size = (second.run later).size ∧
    ∀ fingerprint,
      (first.run later).contains fingerprint = (second.run later).contains fingerprint ∧
        ((first.run later).remove fingerprint).1 = ((second.run later).remove fingerprint).1

/-- What is answered depends on the list alone that a queue stands for. -/
theorem Holds.alike {first second : GhostQueue} (h : Holds capacity list first)
    (h' : Holds capacity list second) : Alike first second := by
  intro later
  have hfirst := h.run later
  have hsecond := h'.run later
  refine ⟨hfirst.size_eq.trans hsecond.size_eq.symm, ?_⟩
  intro fingerprint
  have hcontains := (hfirst.contains_eq fingerprint).trans (hsecond.contains_eq fingerprint).symm
  exact ⟨hcontains, hcontains⟩

/-! ## The length of the queue -/

theorem Holds.length_apply_le (h : Holds capacity list ghosts)
    (hlength : ghosts.order.length ≤ 2 * capacity + 8) (request : Request) :
    (ghosts.apply request).order.length ≤ 2 * capacity + 8 := by
  cases request with
  | record fingerprint =>
    rw [GhostQueue.apply, record_eq, h.capacity_eq]
    split_ifs with hzero
    · exact hlength
    · have hbound := h.bound_stamped (Nat.pos_of_ne_zero hzero) fingerprint
      rw [← hbound.capacity_eq]
      exact hbound.valid.length_compact_le
  | remove fingerprint => exact hlength

theorem length_run_le (capacity : Nat) (requests : List Request) :
    ((empty capacity).run requests).order.length ≤ 2 * capacity + 8 := by
  induction requests using List.reverseRecOn with
  | nil => exact Nat.zero_le _
  | append_singleton requests request ih =>
    rw [run, List.foldl_concat]
    exact (holds_run capacity requests).length_apply_le ih request

/-- What some requests on an empty queue leave. -/
structure Recalls (capacity : Nat) (list : List UInt64) (ghosts : GhostQueue) : Prop where
  nodup : list.Nodup
  toList_eq : ghosts.toList = list
  size_eq : ghosts.size = list.length
  contains_eq : ∀ fingerprint, ghosts.contains fingerprint = decide (fingerprint ∈ list)
  remove_eq : ∀ fingerprint, (ghosts.remove fingerprint).1 = decide (fingerprint ∈ list)
  length_le : ghosts.order.length ≤ 2 * capacity + 8
  /-- A record answers as it would without the compaction at its end. -/
  record_alike : ∀ fingerprint, 0 < capacity →
    Alike (ghosts.record fingerprint) (ghosts.stamped fingerprint).bound
  compact_alike : Alike ghosts.compact ghosts

theorem recalls_of_run (capacity : Nat) (requests : List Request) :
    Recalls capacity (recalled capacity requests) ((empty capacity).run requests) := by
  have h := holds_run capacity requests
  refine
    { nodup := h.nodup
      toList_eq := h.toList_eq
      size_eq := h.size_eq
      contains_eq := h.contains_eq
      remove_eq := h.contains_eq
      length_le := length_run_le capacity requests
      record_alike := ?_
      compact_alike := h.compact.alike h }
  intro fingerprint hpos
  exact (h.record fingerprint).alike (h.bound_stamped hpos fingerprint)

theorem recalls_of_run_refreshed :
    Recalls 2 [4, 1] ((empty 2).run
      [.record 1, .record 2, .record 1, .record 3, .remove 3, .record 4]) :=
  recalls_of_run 2 [.record 1, .record 2, .record 1, .record 3, .remove 3, .record 4]

end KeyHeat.GhostQueue

import KeyHeat.Policy.S3Fifo
import KeyHeat.Proofs.Container.GhostQueue
import KeyHeat.Proofs.Container.KeyCount
import KeyHeat.Proofs.Container.KeyedList
import KeyHeat.Proofs.Number.Word
import KeyHeat.Proofs.Policy.Run
import Mathlib.Algebra.GroupWithZero.Nat

/-!
# The queues of the three-queue policy share out the resident keys

Every resident key is in exactly one of the small and the main queue, with at most three accesses
to its credit. A key that leaves the small queue is either gone or in the main queue, and a clock
sweep of a main queue that holds any key evicts exactly one.
-/

namespace KeyHeat.S3Fifo

variable {κ : Type} [BEq κ] [Hashable κ]

/-- The two queues are separate, hold the keys that have an entry, and no credit is too high. -/
structure Queues (entries : Std.HashMap κ S3FifoEntry) (small main : KeyedList κ) : Prop where
  valid_small : small.Valid
  valid_main : main.Valid
  small_main : small.Apart main
  mem_iff : ∀ key, key ∈ entries ↔ key ∈ small.toList ∨ key ∈ main.toList
  frequency_le : ∀ (key : κ) (entry : S3FifoEntry), entries[key]? = some entry →
    entry.frequency ≤ frequencyMax

/-- The queues agree with the entries while the small queue may be too long. -/
structure Sound (fifo : S3Fifo κ) : Prop where
  queues : Queues fifo.entries fifo.small fifo.main
  valid_ghosts : fifo.ghosts.Valid
  main_le : fifo.main.length ≤ fifo.mainQuota

/-- The queues agree with the entries and fit. -/
structure Valid (fifo : S3Fifo κ) : Prop extends Sound fifo where
  small_le : fifo.small.length ≤ fifo.smallQuota
  capacity_eq : fifo.smallQuota + fifo.mainQuota = fifo.capacity

/-! ## Moving one key -/

section Queues

variable [LawfulBEq κ] {entries : Std.HashMap κ S3FifoEntry} {small main : KeyedList κ} {key : κ}
  {entry : S3FifoEntry}

theorem Queues.size_eq (h : Queues entries small main) :
    entries.size = small.length + main.length := by
  have hnodup : (small.toList ++ main.toList).Nodup := by
    apply List.Nodup.append h.valid_small.nodup_toList h.valid_main.nodup_toList
    intro key hsmall
    exact h.small_main key hsmall
  have hmem : ∀ key, key ∈ small.toList ++ main.toList ↔ key ∈ entries := by
    intro key
    rw [List.mem_append, h.mem_iff]
  rw [h.valid_small.length_eq, h.valid_main.length_eq, ← List.length_append]
  exact (length_eq_size hnodup hmem).symm

theorem Queues.entry_of_mem (h : Queues entries small main)
    (hmem : key ∈ small.toList ∨ key ∈ main.toList) : ∃ entry, entries[key]? = some entry := by
  rw [← Option.isSome_iff_exists, ← Std.HashMap.mem_iff_isSome_getElem?]
  exact (h.mem_iff key).2 hmem

/-- A new entry of a key that ends up in a queue keeps the credits bounded. -/
theorem Queues.frequency_insert (h : Queues entries small main)
    (hfrequency : entry.frequency ≤ frequencyMax) {other : κ} {known : S3FifoEntry}
    (hknown : (entries.insert key entry)[other]? = some known) :
    known.frequency ≤ frequencyMax := by
  rw [Std.HashMap.getElem?_insert] at hknown
  split_ifs at hknown
  · cases hknown
    exact hfrequency
  · exact h.frequency_le other known hknown

theorem Queues.frequency_erase (h : Queues entries small main) {other : κ} {known : S3FifoEntry}
    (hknown : (entries.erase key)[other]? = some known) : known.frequency ≤ frequencyMax := by
  rw [Std.HashMap.getElem?_erase] at hknown
  split_ifs at hknown
  exact h.frequency_le other known hknown

/-- A resident key is credited where it is. -/
theorem Queues.credit (h : Queues entries small main)
    (hmem : key ∈ small.toList ∨ key ∈ main.toList) (hfrequency : entry.frequency ≤ frequencyMax) :
    Queues (entries.insert key entry) small main where
  valid_small := h.valid_small
  valid_main := h.valid_main
  small_main := h.small_main
  mem_iff other := by
    rw [Std.HashMap.mem_insert, beq_iff_eq, h.mem_iff]
    constructor
    · rintro (rfl | hother)
      · exact hmem
      · exact hother
    · exact .inr
  frequency_le _ _ hknown := h.frequency_insert hfrequency hknown

theorem Queues.enter_small (h : Queues entries small main) (hnew : key ∉ entries)
    (hfrequency : entry.frequency ≤ frequencyMax) :
    Queues (entries.insert key entry) (small.push .front key) main := by
  rw [h.mem_iff, not_or] at hnew
  exact {
    valid_small := h.valid_small.push .front key
    valid_main := h.valid_main
    small_main := h.small_main.push h.valid_small .front hnew.2
    mem_iff other := by
      rw [Std.HashMap.mem_insert, beq_iff_eq, h.mem_iff, h.valid_small.mem_push, or_assoc,
        eq_comm (a := key)]
    frequency_le _ _ hknown := h.frequency_insert hfrequency hknown }

theorem Queues.enter_main (h : Queues entries small main) (hnew : key ∉ entries)
    (hfrequency : entry.frequency ≤ frequencyMax) :
    Queues (entries.insert key entry) small (main.push .back key) := by
  rw [h.mem_iff, not_or] at hnew
  exact {
    valid_small := h.valid_small
    valid_main := h.valid_main.push .back key
    small_main := (h.small_main.symm.push h.valid_main .back hnew.1).symm
    mem_iff other := by
      rw [Std.HashMap.mem_insert, beq_iff_eq, h.mem_iff, h.valid_main.mem_push, or_left_comm,
        eq_comm (a := key)]
    frequency_le _ _ hknown := h.frequency_insert hfrequency hknown }

theorem Queues.graduate (h : Queues entries small main) (hmem : key ∈ small.toList) :
    Queues entries (small.erase key) (main.push .back key) := by
  have hnot : key ∉ (small.erase key).toList := by
    intro hin
    exact (h.valid_small.mem_erase.1 hin).1 rfl
  have hapart : (small.erase key).Apart main := h.small_main.erase h.valid_small key
  exact {
    valid_small := h.valid_small.erase key
    valid_main := h.valid_main.push .back key
    small_main := (hapart.symm.push h.valid_main .back hnot).symm
    mem_iff other := by
      rw [h.mem_iff, h.valid_small.mem_erase, h.valid_main.mem_push]
      by_cases heq : other = key
      · simp [heq, hmem]
      · simp [heq]
    frequency_le := h.frequency_le }

theorem Queues.drop_small (h : Queues entries small main) (hmem : key ∈ small.toList) :
    Queues (entries.erase key) (small.erase key) main where
  valid_small := h.valid_small.erase key
  valid_main := h.valid_main
  small_main := h.small_main.erase h.valid_small key
  mem_iff other := by
    rw [Std.HashMap.mem_erase, h.valid_small.mem_erase, h.mem_iff]
    by_cases heq : other = key
    · simp [heq, h.small_main key hmem]
    · simp [heq, Ne.symm heq]
  frequency_le _ _ hknown := h.frequency_erase hknown

theorem Queues.drop_main (h : Queues entries small main) (hmem : key ∈ main.toList) :
    Queues (entries.erase key) small (main.erase key) where
  valid_small := h.valid_small
  valid_main := h.valid_main.erase key
  small_main := (h.small_main.symm.erase h.valid_main key).symm
  mem_iff other := by
    rw [Std.HashMap.mem_erase, h.valid_main.mem_erase, h.mem_iff]
    by_cases heq : other = key
    · simp [heq, h.small_main.symm key hmem]
    · simp [heq, Ne.symm heq]
  frequency_le _ _ hknown := h.frequency_erase hknown

theorem Queues.touch_main (h : Queues entries small main) (key : κ) :
    Queues entries small (main.touch .back key) where
  valid_small := h.valid_small
  valid_main := h.valid_main.touch .back key
  small_main := (h.small_main.symm.touch h.valid_main .back key).symm
  mem_iff other := by rw [h.valid_main.mem_touch, h.mem_iff]
  frequency_le := h.frequency_le

end Queues

variable {fifo : S3Fifo κ}

/-! ## Steps -/

/-- The state in which a key has been added at the tail of the main queue. -/
def pushMain (fifo : S3Fifo κ) (key : κ) : S3Fifo κ :=
  { fifo with main := fifo.main.push .back key }

/-- The state in which a key has been taken out of the small queue. -/
def pullSmall (fifo : S3Fifo κ) (key : κ) : S3Fifo κ :=
  { fifo with small := fifo.small.erase key }

theorem enterMain_eq (fifo : S3Fifo κ) (key : κ) :
    fifo.enterMain key = if (fifo.pushMain key).main.length > fifo.mainQuota
      then (fifo.pushMain key).evictFromMain else fifo.pushMain key := rfl

section Steps

variable [HashMaterial κ]

/-- The state in which a key without an access to its credit has left the small queue for good. -/
def retire (fifo : S3Fifo κ) (key : κ) : S3Fifo κ :=
  { fifo with
    entries := fifo.entries.erase key
    small := fifo.small.erase key
    ghosts := fifo.ghosts.record (fingerprint key) }

/-- The state in which a key that was remembered has an entry again, but no queue yet. -/
def restore (fifo : S3Fifo κ) (key : κ) : S3Fifo κ :=
  { fifo with
    entries := fifo.entries.insert key ⟨0, fifo.tick⟩
    ghosts := fifo.ghosts.erase (fingerprint key) }

omit [HashMaterial κ] in
/-- The state in which a new key has been added at the head of the small queue. -/
def introduce (fifo : S3Fifo κ) (key : κ) : S3Fifo κ :=
  { fifo with
    entries := fifo.entries.insert key ⟨0, fifo.tick⟩
    small := fifo.small.push .front key }

theorem leaveSmall_of_new {fifo : S3Fifo κ} {key : κ} (hnew : fifo.entries[key]? = none) :
    fifo.leaveSmall key = fifo.pullSmall key := by
  have hlookup : (fifo.pullSmall key).frequency? key = none := by
    rw [frequency?, entry?, pullSmall, hnew, Option.map_none]
  unfold pullSmall at hlookup
  rw [leaveSmall]
  simp only [hlookup]
  rfl

theorem leaveSmall_of_entry {fifo : S3Fifo κ} {key : κ} {entry : S3FifoEntry}
    (hentry : fifo.entries[key]? = some entry) :
    fifo.leaveSmall key = if entry.frequency = 0 then fifo.retire key
      else (fifo.pullSmall key).enterMain key := by
  have hlookup : (fifo.pullSmall key).frequency? key = some entry.frequency := by
    rw [frequency?, entry?, pullSmall, hentry, Option.map_some]
  unfold pullSmall at hlookup
  rw [leaveSmall]
  simp only [hlookup]
  rfl

theorem enroll_eq (fifo : S3Fifo κ) (key : κ) :
    fifo.enroll key = if fifo.ghosts.contains (fingerprint key)
      then (fifo.restore key).enterMain key else (fifo.introduce key).drainSmall := rfl

end Steps

/-! ## Outcomes -/

theorem frequency?_eq (fifo : S3Fifo κ) (key : κ) :
    fifo.frequency? key = (fifo.entries[key]?).map (·.frequency) := rfl

/-- The division of the capacity. -/
def quotas (fifo : S3Fifo κ) : Nat × Nat × Nat := (fifo.smallQuota, fifo.mainQuota, fifo.capacity)

/-- What the moves within an access leave alone: the division of the capacity and the tick. -/
def frame (fifo : S3Fifo κ) : (Nat × Nat × Nat) × Nat := (fifo.quotas, fifo.tick)

theorem frame_sweep (fifo : S3Fifo κ) (fuel : Nat) :
    (evictFromMain.sweep fifo fuel).frame = fifo.frame := by
  induction fuel generalizing fifo with
  | zero => rfl
  | succ fuel ih =>
    rw [evictFromMain.sweep]
    cases fifo.main.peek? .front with
    | none => rfl
    | some head =>
      dsimp only
      cases fifo.entry? head with
      | none => exact ih _
      | some entry =>
        dsimp only
        split_ifs
        · rfl
        · exact ih _

theorem frame_enterMain (fifo : S3Fifo κ) (key : κ) :
    (fifo.enterMain key).frame = fifo.frame := by
  unfold enterMain
  dsimp only
  split_ifs
  · exact frame_sweep _ _
  · rfl

section Outcomes

variable [HashMaterial κ]

theorem frame_leaveSmall (fifo : S3Fifo κ) (key : κ) :
    (fifo.leaveSmall key).frame = fifo.frame := by
  unfold leaveSmall
  dsimp only
  split
  · rfl
  · split_ifs
    · rfl
    · exact frame_enterMain _ key

theorem frame_settle (fifo : S3Fifo κ) (excess : Nat) :
    (drainSmall.settle fifo excess).frame = fifo.frame := by
  induction excess generalizing fifo with
  | zero => rfl
  | succ excess ih =>
    rw [drainSmall.settle]
    cases fifo.small.peek? .back with
    | none => rfl
    | some oldest => exact (ih _).trans (fifo.frame_leaveSmall oldest)

theorem frame_enroll (fifo : S3Fifo κ) (key : κ) : (fifo.enroll key).frame = fifo.frame := by
  unfold enroll
  dsimp only
  split_ifs
  · exact frame_enterMain _ key
  · exact frame_settle _ _

theorem quotas_put (fifo : S3Fifo κ) (key : κ) : (fifo.put key).2.quotas = fifo.quotas := by
  unfold put
  split_ifs
  · rfl
  · dsimp only
    cases fifo.advance.entry? key with
    | none => exact congrArg Prod.fst (frame_enroll _ key)
    | some entry => rfl

omit [HashMaterial κ] in
theorem quotas_get (fifo : S3Fifo κ) (key : κ) : (fifo.get key).2.quotas = fifo.quotas := by
  unfold get
  dsimp only
  cases fifo.advance.entry? key <;> rfl

theorem tick_put (fifo : S3Fifo κ) (key : κ) :
    (fifo.put key).2.tick = if fifo.capacity = 0 then fifo.tick else fifo.tick + 1 := by
  unfold put
  split_ifs
  · rfl
  · dsimp only
    cases fifo.advance.entry? key with
    | none => exact congrArg Prod.snd (frame_enroll _ key)
    | some entry => rfl

omit [HashMaterial κ] in
theorem tick_get (fifo : S3Fifo κ) (key : κ) : (fifo.get key).2.tick = fifo.tick + 1 := by
  unfold get
  dsimp only
  cases fifo.advance.entry? key <;> rfl

theorem put_fst (key : κ) :
    (fifo.put key).1 = if fifo.capacity = 0 then .error .capacity else .ok () := by
  unfold put
  split_ifs
  · rfl
  · dsimp only
    cases fifo.advance.entry? key <;> rfl

end Outcomes

/-! ## The clock sweep -/

theorem toNat_sub_one {frequency : UInt8} (hne : frequency ≠ 0) :
    1 ≤ frequency.toNat ∧ (frequency - 1).toNat = frequency.toNat - 1 := by
  have hpos : 1 ≤ frequency.toNat :=
    Nat.one_le_iff_ne_zero.2 fun hzero ↦ hne (UInt8.toNat_inj.1 hzero)
  have hle : (1 : UInt8) ≤ frequency := UInt8.le_iff_toNat_le.2 hpos
  exact ⟨hpos, UInt8.toNat_sub_of_le _ _ hle⟩

/-- The accesses to the credit of a key. -/
def creditAt (entries : Std.HashMap κ S3FifoEntry) (key : κ) : Nat :=
  (entries[key]?).elim 0 (·.frequency.toNat)

/-- The accesses to the credit of a list of keys. -/
def creditOf (entries : Std.HashMap κ S3FifoEntry) (keys : List κ) : Nat :=
  (keys.map (creditAt entries)).sum

theorem creditOf_cons (entries : Std.HashMap κ S3FifoEntry) (key : κ) (keys : List κ) :
    creditOf entries (key :: keys) = creditAt entries key + creditOf entries keys :=
  List.sum_cons

theorem creditOf_append (entries : Std.HashMap κ S3FifoEntry) (first second : List κ) :
    creditOf entries (first ++ second) = creditOf entries first + creditOf entries second := by
  rw [creditOf, List.map_append, List.sum_append]
  rfl

theorem creditAt_lt (entries : Std.HashMap κ S3FifoEntry) (key : κ) :
    creditAt entries key < UInt8.size := by
  unfold creditAt
  cases entries[key]? with
  | none => decide
  | some entry => exact entry.frequency.toNat_lt

theorem creditOf_add_length_le (entries : Std.HashMap κ S3FifoEntry) (keys : List κ) :
    creditOf entries keys + keys.length ≤ UInt8.size * keys.length := by
  induction keys with
  | nil => exact Nat.le_refl _
  | cons key rest ih =>
    have hkey := creditAt_lt entries key
    rw [creditOf_cons, List.length_cons, Nat.mul_succ]
    omega

variable [LawfulBEq κ]

theorem creditOf_insert {entries : Std.HashMap κ S3FifoEntry} {keys : List κ} {key : κ}
    (hnot : key ∉ keys) (entry : S3FifoEntry) :
    creditOf (entries.insert key entry) keys = creditOf entries keys := by
  rw [creditOf, creditOf]
  congr 1
  apply List.map_congr_left
  intro other hmem
  rw [creditAt, creditAt, getElem?_insert_of_ne _ _ (ne_of_mem_of_not_mem hmem hnot)]

theorem toList_giveSecondChance (h : fifo.main.Valid) {head : κ} {rest : List κ}
    (hlist : fifo.main.toList = head :: rest) (entry : S3FifoEntry) :
    (fifo.giveSecondChance head entry).main.toList = rest ++ [head] := by
  have hmem : head ∈ fifo.main.toList := by simp [hlist]
  calc
    _ = fifo.main.toList.erase head ++ [head] := h.toList_touch .back hmem
    _ = rest ++ [head] := by rw [hlist, List.erase_cons_head]

/-- A key that is passed over loses an access, and the others keep theirs. -/
theorem creditOf_giveSecondChance (h : fifo.main.Valid) {head : κ} {rest : List κ}
    (hlist : fifo.main.toList = head :: rest) {entry : S3FifoEntry}
    (hentry : fifo.entries[head]? = some entry) (hne : entry.frequency ≠ 0) :
    creditOf (fifo.giveSecondChance head entry).entries
        (fifo.giveSecondChance head entry).main.toList + 1 =
      creditOf fifo.entries fifo.main.toList := by
  have hnodup := h.nodup_toList
  rw [hlist, List.nodup_cons] at hnodup
  have hmoved := toList_giveSecondChance h hlist entry
  obtain ⟨hpos, hlowered⟩ := toNat_sub_one hne
  have hhead : creditAt (fifo.giveSecondChance head entry).entries head =
      entry.frequency.toNat - 1 := by
    rw [creditAt]
    change ((fifo.entries.insert head { entry with frequency := entry.frequency - 1 })[head]?).elim
      0 _ = _
    rw [Std.HashMap.getElem?_insert_self, Option.elim_some, hlowered]
  have hrest : creditOf (fifo.giveSecondChance head entry).entries rest =
      creditOf fifo.entries rest := creditOf_insert hnodup.1 _
  have hbefore : creditAt fifo.entries head = entry.frequency.toNat := by
    rw [creditAt, hentry, Option.elim_some]
  rw [hmoved, hlist, creditOf_append, creditOf_cons, creditOf_cons, hhead, hrest, hbefore]
  change _ + (_ + 0) + 1 = _
  omega

theorem Queues.giveSecondChance (h : Queues fifo.entries fifo.small fifo.main) {head : κ}
    (hmem : head ∈ fifo.main.toList) {entry : S3FifoEntry}
    (hentry : fifo.entries[head]? = some entry) (hne : entry.frequency ≠ 0) :
    Queues (fifo.giveSecondChance head entry).entries (fifo.giveSecondChance head entry).small
      (fifo.giveSecondChance head entry).main := by
  have hlowered : entry.frequency - 1 ≤ frequencyMax := by
    rw [UInt8.le_iff_toNat_le, (toNat_sub_one hne).2]
    calc
      entry.frequency.toNat - 1 ≤ entry.frequency.toNat := Nat.sub_le _ _
      _ ≤ frequencyMax.toNat := UInt8.le_iff_toNat_le.1 (h.frequency_le head entry hentry)
  have hmoved : head ∈ (fifo.main.touch .back head).toList := (h.valid_main.mem_touch .back).2 hmem
  exact (h.touch_main head).credit (.inr hmoved) hlowered

omit [LawfulBEq κ] in
theorem sweep_succ (hmain : fifo.main.Valid) {head : κ} {rest : List κ}
    (hlist : fifo.main.toList = head :: rest) {entry : S3FifoEntry}
    (hentry : fifo.entries[head]? = some entry) (fuel : Nat) :
    evictFromMain.sweep fifo (fuel + 1) = if entry.frequency = 0 then fifo.dropFromMain head
      else evictFromMain.sweep (fifo.giveSecondChance head entry) fuel := by
  have hpeek : fifo.main.peek? .front = some head := by
    rw [hmain.peek?_front, hlist, List.head?_cons]
  have hlookup : fifo.entry? head = some entry := hentry
  rw [evictFromMain.sweep, hpeek]
  simp only [hlookup]

/-- A sweep with more fuel than there is credit evicts one key of a main queue that has any. -/
theorem Queues.sweep (h : Queues fifo.entries fifo.small fifo.main) {fuel : Nat}
    (hfuel : creditOf fifo.entries fifo.main.toList < fuel) (hne : fifo.main.toList ≠ []) :
    Queues (evictFromMain.sweep fifo fuel).entries (evictFromMain.sweep fifo fuel).small
        (evictFromMain.sweep fifo fuel).main ∧
      (evictFromMain.sweep fifo fuel).small = fifo.small ∧
      (evictFromMain.sweep fifo fuel).ghosts = fifo.ghosts ∧
      (evictFromMain.sweep fifo fuel).main.length + 1 = fifo.main.length := by
  induction fuel generalizing fifo with
  | zero => exact absurd hfuel (Nat.not_lt_zero _)
  | succ fuel ih =>
    obtain ⟨head, rest, hlist⟩ := List.exists_cons_of_ne_nil hne
    have hmem : head ∈ fifo.main.toList := by simp [hlist]
    obtain ⟨entry, hentry⟩ := h.entry_of_mem (.inr hmem)
    rw [sweep_succ h.valid_main hlist hentry]
    split_ifs with hzero
    · exact ⟨h.drop_main hmem, rfl, rfl, h.valid_main.length_erase hmem⟩
    · have hcredit := creditOf_giveSecondChance h.valid_main hlist hentry hzero
      have hlength : (fifo.giveSecondChance head entry).main.length = fifo.main.length :=
        h.valid_main.length_touch .back head
      have hmoved : (fifo.giveSecondChance head entry).main.toList ≠ [] :=
        List.ne_nil_of_mem ((h.valid_main.mem_touch .back).2 hmem)
      obtain ⟨hqueues, hsmall, hghosts, hmain⟩ :=
        ih (h.giveSecondChance hmem hentry hzero) (by omega) hmoved
      exact ⟨hqueues, hsmall, hghosts, hmain.trans hlength⟩

theorem Queues.evictFromMain (h : Queues fifo.entries fifo.small fifo.main)
    (hne : fifo.main.toList ≠ []) :
    Queues fifo.evictFromMain.entries fifo.evictFromMain.small fifo.evictFromMain.main ∧
      fifo.evictFromMain.small = fifo.small ∧ fifo.evictFromMain.ghosts = fifo.ghosts ∧
      fifo.evictFromMain.main.length + 1 = fifo.main.length := by
  have hcredit := creditOf_add_length_le fifo.entries fifo.main.toList
  have hpos := List.length_pos_of_ne_nil hne
  rw [← h.valid_main.length_eq] at hcredit hpos
  have hfuel : creditOf fifo.entries fifo.main.toList < UInt8.size * fifo.main.length := by
    omega
  exact h.sweep hfuel hne

/-! ## Between the queues -/

/-- A key that enters the main queue leaves it within its quota. -/
theorem Sound.enterMain {key : κ}
    (hqueues : Queues (fifo.pushMain key).entries (fifo.pushMain key).small
      (fifo.pushMain key).main)
    (hmain : fifo.main.Valid) (hnot : key ∉ fifo.main.toList) (hghosts : fifo.ghosts.Valid)
    (hle : fifo.main.length ≤ fifo.mainQuota) :
    (fifo.enterMain key).Sound ∧ (fifo.enterMain key).small = fifo.small := by
  have hlength : (fifo.pushMain key).main.length = fifo.main.length + 1 :=
    hmain.length_push .back hnot
  rw [enterMain_eq]
  split_ifs with hfull
  · have hne : (fifo.pushMain key).main.toList ≠ [] :=
      List.ne_nil_of_mem ((hmain.mem_push .back).2 (.inl rfl))
    obtain ⟨hswept, hsmall, hkept, hevicted⟩ := Queues.evictFromMain hqueues hne
    have hquota : (fifo.pushMain key).evictFromMain.mainQuota = fifo.mainQuota :=
      congrArg (·.1.2.1) (frame_sweep (fifo.pushMain key) _)
    have hvalid : (fifo.pushMain key).evictFromMain.ghosts.Valid := by
      rw [hkept]
      exact hghosts
    have hfits : (fifo.pushMain key).evictFromMain.main.length ≤
        (fifo.pushMain key).evictFromMain.mainQuota := by
      rw [hquota]
      omega
    exact ⟨⟨hswept, hvalid, hfits⟩, hsmall⟩
  · exact ⟨⟨hqueues, hghosts, Nat.le_of_not_lt hfull⟩, rfl⟩

variable [HashMaterial κ]

theorem Sound.leaveSmall (h : fifo.Sound) {key : κ} (hmem : key ∈ fifo.small.toList) :
    (fifo.leaveSmall key).Sound ∧ (fifo.leaveSmall key).small = fifo.small.erase key := by
  obtain ⟨entry, hentry⟩ := h.queues.entry_of_mem (.inl hmem)
  rw [leaveSmall_of_entry hentry]
  split_ifs
  · exact ⟨⟨h.queues.drop_small hmem, h.valid_ghosts.record _, h.main_le⟩, rfl⟩
  · exact Sound.enterMain (h.queues.graduate hmem) h.queues.valid_main
      (h.queues.small_main key hmem) h.valid_ghosts h.main_le

/-- Taking keys out of the small queue, one for each that is too many, makes it fit. -/
theorem Sound.settle (h : fifo.Sound) {excess : Nat}
    (hexcess : fifo.small.length ≤ fifo.smallQuota + excess) :
    (drainSmall.settle fifo excess).Sound ∧
      (drainSmall.settle fifo excess).small.length ≤ fifo.smallQuota := by
  induction excess generalizing fifo with
  | zero => exact ⟨h, hexcess⟩
  | succ excess ih =>
    have hsmall := h.queues.valid_small
    rw [drainSmall.settle, hsmall.peek?_back]
    cases hlast : fifo.small.toList.getLast? with
    | none =>
      refine ⟨h, ?_⟩
      rw [hsmall.length_eq, List.getLast?_eq_none_iff.1 hlast]
      exact Nat.zero_le _
    | some oldest =>
      have hmem := List.mem_of_getLast? hlast
      obtain ⟨hsound, heq⟩ := h.leaveSmall hmem
      have hlength := hsmall.length_erase hmem
      have hquota : (fifo.leaveSmall oldest).smallQuota = fifo.smallQuota :=
        congrArg (·.1.1) (fifo.frame_leaveSmall oldest)
      have hexcess' : (fifo.leaveSmall oldest).small.length ≤
          (fifo.leaveSmall oldest).smallQuota + excess := by
        rw [heq, hquota]
        omega
      dsimp only
      rw [← hquota]
      exact ih hsound hexcess'

theorem Sound.drainSmall (h : fifo.Sound) :
    fifo.drainSmall.Sound ∧ fifo.drainSmall.small.length ≤ fifo.smallQuota := by
  have hexcess : fifo.small.length ≤
      fifo.smallQuota + (fifo.small.length - fifo.smallQuota) := by
    omega
  exact h.settle hexcess

/-! ## Accesses -/

omit [LawfulBEq κ] [HashMaterial κ] in
theorem Valid.of_sound {fifo' : S3Fifo κ} (h : fifo.Valid) (hsound : fifo'.Sound)
    (hquotas : fifo'.quotas = fifo.quotas) (hsmall : fifo'.small.length ≤ fifo.smallQuota) :
    fifo'.Valid := by
  obtain ⟨hsmallQuota, hrest⟩ := Prod.mk.inj hquotas
  obtain ⟨hmainQuota, hcapacity⟩ := Prod.mk.inj hrest
  have hfits : fifo'.small.length ≤ fifo'.smallQuota := by
    rw [hsmallQuota]
    exact hsmall
  have hshared : fifo'.smallQuota + fifo'.mainQuota = fifo'.capacity := by
    rw [hmainQuota, hcapacity, hsmallQuota]
    exact h.capacity_eq
  exact ⟨hsound, hfits, hshared⟩

theorem Valid.enroll (h : fifo.Valid) {key : κ} (hnew : key ∉ fifo.entries) :
    (fifo.enroll key).Valid := by
  have hqueues := h.queues
  have hsmall := h.small_le
  have hnot := hnew
  rw [hqueues.mem_iff, not_or] at hnot
  have hzero : (0 : UInt8) ≤ frequencyMax := by decide
  have hquotas : (fifo.enroll key).quotas = fifo.quotas :=
    congrArg Prod.fst (fifo.frame_enroll key)
  rw [enroll_eq] at hquotas ⊢
  split_ifs at hquotas ⊢
  · have hrestored : Queues ((fifo.restore key).pushMain key).entries
        ((fifo.restore key).pushMain key).small ((fifo.restore key).pushMain key).main :=
      hqueues.enter_main hnew hzero
    obtain ⟨hsound, hkept⟩ := Sound.enterMain hrestored hqueues.valid_main hnot.2
      (h.valid_ghosts.erase _) h.main_le
    have hfits : ((fifo.restore key).enterMain key).small.length ≤ fifo.smallQuota := by
      rw [hkept]
      exact hsmall
    exact h.of_sound hsound hquotas hfits
  · have hintroduced : (fifo.introduce key).Sound :=
      ⟨hqueues.enter_small hnew hzero, h.valid_ghosts, h.main_le⟩
    obtain ⟨hsound, hfits⟩ := hintroduced.drainSmall
    exact h.of_sound hsound hquotas hfits

omit [HashMaterial κ] in
theorem Valid.touch (h : fifo.Valid) {key : κ} {entry : S3FifoEntry}
    (hentry : fifo.entries[key]? = some entry) : (fifo.touch key entry).Valid := by
  have hmem : key ∈ fifo.small.toList ∨ key ∈ fifo.main.toList :=
    (h.queues.mem_iff key).1 (mem_of_getElem? hentry)
  have hqueues : Queues (fifo.touch key entry).entries (fifo.touch key entry).small
      (fifo.touch key entry).main := h.queues.credit hmem Std.min_le_right
  exact ⟨⟨hqueues, h.valid_ghosts, h.main_le⟩, h.small_le, h.capacity_eq⟩

omit [LawfulBEq κ] [HashMaterial κ] in
theorem Valid.advance (h : fifo.Valid) : fifo.advance.Valid :=
  ⟨⟨h.queues, h.valid_ghosts, h.main_le⟩, h.small_le, h.capacity_eq⟩

theorem Valid.put (h : fifo.Valid) (key : κ) : (fifo.put key).2.Valid := by
  unfold S3Fifo.put
  split_ifs
  · exact h
  · cases hentry : fifo.advance.entry? key with
    | none =>
      simp only [hentry]
      apply h.advance.enroll
      exact not_mem_of_getElem? hentry
    | some entry =>
      simp only [hentry]
      exact h.advance.touch hentry

omit [HashMaterial κ] in
theorem Valid.get (h : fifo.Valid) (key : κ) : (fifo.get key).2.Valid := by
  unfold S3Fifo.get
  cases hentry : fifo.advance.entry? key with
  | none =>
    simp only [hentry]
    exact h.advance
  | some entry =>
    simp only [hentry]
    exact h.advance.touch hentry

omit [HashMaterial κ] in
theorem get_fst (key : κ) :
    (fifo.get key).1 = if fifo.entries.contains key then .ok () else .error .notFound := by
  rw [get, entry?, advance, Std.HashMap.contains_eq_isSome_getElem?]
  cases fifo.entries[key]? <;> rfl

omit [HashMaterial κ] in
theorem get_fst_of_frequency? (fifo : S3Fifo κ) (key : κ) :
    (fifo.get key).1 = if (fifo.frequency? key).isSome then .ok () else .error .notFound := by
  rw [get_fst, frequency?, Option.isSome_map, Std.HashMap.contains_eq_isSome_getElem?]
  rfl

omit [HashMaterial κ] in
theorem valid_ofQuotas (smallQuota mainQuota ghostQuota : Nat) :
    (ofQuotas smallQuota mainQuota ghostQuota : S3Fifo κ).Valid where
  queues := {
    valid_small := KeyedList.valid_empty
    valid_main := KeyedList.valid_empty
    small_main _ hmem := (List.not_mem_nil hmem).elim
    mem_iff key := by simp [ofQuotas]
    frequency_le key entry hentry := by simp [ofQuotas] at hentry }
  valid_ghosts := GhostQueue.valid_empty _
  main_le := Nat.zero_le _
  small_le := Nat.zero_le _
  capacity_eq := rfl

/-- The capacity is divided unless the small queue takes more than all of it, or a queue is as large
as a word allows. -/
theorem mainShare_eq (capacity smallQuota : Nat) :
    mainShare capacity smallQuota =
      if capacity < smallQuota then .error .subtraction
      else if Number.wordLimit ≤ max smallQuota (capacity - smallQuota) + 1 then .error .addition
      else .ok (capacity - smallQuota) := by
  unfold mainShare
  split_ifs with hover hfull
  · rw [Number.difference_of_lt hover]
    rfl
  · rw [Number.difference_of_le (Nat.le_of_not_lt hover)]
    change (Number.sum smallQuota 1 >>= fun _ ↦ _) = _
    by_cases hsmall : smallQuota + 1 < Number.wordLimit
    · have hmain : Number.wordLimit ≤ capacity - smallQuota + 1 := by
        omega
      rw [Number.sum_of_lt hsmall]
      change (Number.sum (capacity - smallQuota) 1 >>= fun _ ↦ _) = _
      rw [Number.sum_of_le hmain]
      rfl
    · rw [Number.sum_of_le (Nat.le_of_not_lt hsmall)]
      rfl
  · have hsmall : smallQuota + 1 < Number.wordLimit := by
      omega
    have hmain : capacity - smallQuota + 1 < Number.wordLimit := by
      omega
    rw [Number.difference_of_le (Nat.le_of_not_lt hover)]
    change (Number.sum smallQuota 1 >>= fun _ ↦ Number.sum (capacity - smallQuota) 1 >>= _) = _
    rw [Number.sum_of_lt hsmall, Number.sum_of_lt hmain]
    rfl

theorem mainShare_eq_ok {capacity smallQuota mainQuota : Nat}
    (h : mainShare capacity smallQuota = .ok mainQuota) :
    smallQuota ≤ capacity ∧ mainQuota = capacity - smallQuota := by
  rw [mainShare_eq] at h
  split_ifs at h with hover
  exact ⟨Nat.le_of_not_lt hover, (Except.ok.inj h).symm⟩

omit [LawfulBEq κ] [HashMaterial κ] in
theorem create_eq {capacity : Nat} {smallRatio ghostRatio : Float}
    (h : create capacity smallRatio ghostRatio = .ok fifo) :
    smallShare capacity smallRatio ≤ capacity ∧
      fifo = ofQuotas (smallShare capacity smallRatio) (capacity - smallShare capacity smallRatio)
        (ghostShare capacity ghostRatio) := by
  unfold create at h
  split_ifs at h
  obtain ⟨mainQuota, hmain, rfl⟩ := exists_of_map_eq_ok (Halt.ofOverflow_eq_ok.1 h)
  obtain ⟨hle, rfl⟩ := mainShare_eq_ok hmain
  exact ⟨hle, rfl⟩

omit [HashMaterial κ] in
theorem valid_create {capacity : Nat} {smallRatio ghostRatio : Float}
    (h : create capacity smallRatio ghostRatio = .ok fifo) :
    fifo.Valid ∧ fifo.capacity = capacity ∧ fifo.smallQuota = smallShare capacity smallRatio := by
  obtain ⟨hle, rfl⟩ := create_eq h
  exact ⟨valid_ofQuotas _ _ _, Nat.add_sub_of_le hle, rfl⟩

/-! ## Runs -/

/-- The outcome of a call and the state that it leaves. -/
def serve : Service (S3Fifo κ) κ
  | fifo, .put key => fifo.put key
  | fifo, .get key => fifo.get key

omit [LawfulBEq κ] in
theorem tick_serve (hpos : 0 < fifo.capacity) (call : Call κ) :
    (serve fifo call).2.tick = fifo.tick + 1 := by
  cases call with
  | put key => exact (tick_put fifo key).trans (if_neg hpos.ne')
  | get key => exact tick_get fifo key

omit [LawfulBEq κ] in
theorem quotas_serve (fifo : S3Fifo κ) (call : Call κ) :
    (serve fifo call).2.quotas = fifo.quotas := by
  cases call with
  | put key => exact fifo.quotas_put key
  | get key => exact fifo.quotas_get key

/-- A state that a policy with the given parameters is in after some calls. -/
def Reachable (fifo : S3Fifo κ) (capacity : Nat) (smallRatio ghostRatio : Float) : Prop :=
  ∃ start calls, create capacity smallRatio ghostRatio = .ok start ∧
    fifo = serve.run start calls

theorem Valid.serve (h : fifo.Valid) (call : Call κ) : (S3Fifo.serve fifo call).2.Valid := by
  cases call with
  | put key => exact h.put key
  | get key => exact h.get key

theorem Valid.run (h : fifo.Valid) (calls : List (Call κ)) :
    (S3Fifo.serve.run fifo calls).Valid :=
  S3Fifo.serve.run_invariant (fun _ call hvalid ↦ hvalid.serve call) h calls

omit [LawfulBEq κ] in
theorem quotas_run (fifo : S3Fifo κ) (calls : List (Call κ)) :
    (serve.run fifo calls).quotas = fifo.quotas := by
  apply serve.run_invariant (P := fun state ↦ state.quotas = fifo.quotas) _ rfl
  intro state call hsame
  exact (state.quotas_serve call).trans hsame

variable {capacity : Nat} {smallRatio ghostRatio : Float}

theorem Reachable.valid (h : fifo.Reachable capacity smallRatio ghostRatio) : fifo.Valid := by
  obtain ⟨start, calls, hstart, rfl⟩ := h
  exact (valid_create hstart).1.run calls

theorem Reachable.capacity_eq (h : fifo.Reachable capacity smallRatio ghostRatio) :
    fifo.capacity = capacity := by
  obtain ⟨start, calls, hstart, rfl⟩ := h
  exact (congrArg (·.2.2) (start.quotas_run calls)).trans (valid_create hstart).2.1

theorem Reachable.smallQuota_eq (h : fifo.Reachable capacity smallRatio ghostRatio) :
    fifo.smallQuota = smallShare capacity smallRatio := by
  obtain ⟨start, calls, hstart, rfl⟩ := h
  exact (congrArg (·.1) (start.quotas_run calls)).trans (valid_create hstart).2.2

/-! ## Reports -/

omit [HashMaterial κ]

theorem Valid.size_le (h : fifo.Valid) : fifo.size ≤ fifo.capacity := by
  have hsize : fifo.size = fifo.small.length + fifo.main.length := h.queues.size_eq
  have hsmall := h.small_le
  have hmain := h.main_le
  have hcapacity := h.capacity_eq
  omega

/-- A resident key is linked in its queue, with a credit within the bound. -/
theorem Queues.isMisplaced_eq (h : Queues fifo.entries fifo.small fifo.main) {key : κ}
    {entry : S3FifoEntry} (hentry : fifo.entries[key]? = some entry) :
    fifo.isMisplaced key entry = false := by
  have hmem := mem_of_getElem? hentry
  rw [h.mem_iff, ← h.valid_small.contains_iff, ← h.valid_main.contains_iff] at hmem
  have hfrequency := h.frequency_le key entry hentry
  unfold isMisplaced inMain
  by_cases hmain : fifo.main.contains key = true
  · simp [h.valid_main.isLinked_eq, hmain, UInt8.not_lt.2 hfrequency]
  · have hsmall := hmem.resolve_right hmain
    simp [h.valid_small.isLinked_eq, hmain, hsmall, UInt8.not_lt.2 hfrequency]

theorem Queues.find?_misplaced (h : Queues fifo.entries fifo.small fifo.main) :
    (fifo.entries.toList.find? fun (key, entry) ↦ fifo.isMisplaced key entry) = none := by
  apply find?_toList_eq_none
  intro key entry hentry
  exact h.isMisplaced_eq hentry

theorem Valid.check_eq (h : fifo.Valid) : fifo.check = .ok () := by
  have hqueues := h.queues
  have hsize : fifo.size = fifo.small.length + fifo.main.length := hqueues.size_eq
  rw [check, hqueues.valid_small.check_eq, hqueues.valid_main.check_eq, h.valid_ghosts.check_eq,
    hqueues.find?_misplaced]
  simp [hsize, Nat.not_lt.2 h.small_le, Nat.not_lt.2 h.main_le, bind, Except.bind, pure,
    Except.pure]

omit [LawfulBEq κ] in
theorem Valid.nodup_hotKeys (h : fifo.Valid) : fifo.hotKeys.Nodup :=
  h.queues.valid_main.nodup_toList.filter _

theorem Valid.mem_hotKeys (h : fifo.Valid) {key : κ} :
    key ∈ fifo.hotKeys ↔ fifo.isHot key = true := by
  rw [hotKeys, List.mem_filter, and_iff_right_iff_imp]
  intro hhot
  rw [isHot, Bool.and_eq_true] at hhot
  exact h.queues.valid_main.contains_iff.1 hhot.1

end KeyHeat.S3Fifo

import KeyHeat.Proofs.Policy.S3Fifo

/-!
# The clock sweep in closed form

A sweep evicts the first of the keys that have the fewest accesses to their credit. The keys
behind it come to the head of the main queue and have lost as many accesses as it had; the keys
before it follow them and have lost one more. The order within either part stays.
-/

namespace KeyHeat

/-- An entry that has lost some accesses to its credit. -/
def S3FifoEntry.charge (entry : S3FifoEntry) (amount : Nat) : S3FifoEntry :=
  { entry with frequency := entry.frequency - UInt8.ofNat amount }

namespace S3FifoEntry

@[simp]
theorem charge_zero (entry : S3FifoEntry) : entry.charge 0 = entry := by
  simp [charge]

theorem charge_charge (entry : S3FifoEntry) (first second : Nat) :
    (entry.charge first).charge second = entry.charge (first + second) := by
  simp only [charge, UInt8.ofNat_add, UInt8.sub_eq_add_neg, UInt8.neg_add, UInt8.add_assoc]

end S3FifoEntry

namespace S3Fifo

variable {κ : Type} [BEq κ] [Hashable κ] {fifo : S3Fifo κ}

/-! ## The first of the least keys -/

/-- The victim is the first key with the fewest accesses to its credit. -/
structure FirstLeast (credit : κ → Nat) (before : List κ) (victim : κ) (after : List κ) :
    Prop where
  before_lt : ∀ key ∈ before, credit victim < credit key
  after_le : ∀ key ∈ after, credit victim ≤ credit key

omit [BEq κ] [Hashable κ] in
theorem exists_firstLeast (credit : κ → Nat) {keys : List κ} (hne : keys ≠ []) :
    ∃ before victim after, keys = before ++ victim :: after ∧
      FirstLeast credit before victim after := by
  induction keys with
  | nil => exact absurd rfl hne
  | cons key rest ih =>
    cases rest with
    | nil => exact ⟨[], key, [], rfl, by simp, by simp⟩
    | cons next rest =>
      obtain ⟨before, victim, after, hsplit, hbefore, hafter⟩ := ih (List.cons_ne_nil _ _)
      rcases Nat.lt_or_ge (credit victim) (credit key) with hlt | hle
      · refine ⟨key :: before, victim, after, by rw [hsplit, List.cons_append], ?_, hafter⟩
        exact List.forall_mem_cons.2 ⟨hlt, hbefore⟩
      · refine ⟨[], key, next :: rest, rfl, by simp, ?_⟩
        intro other hother
        rw [hsplit, List.mem_append, List.mem_cons] at hother
        rcases hother with hother | rfl | hother
        · exact hle.trans (hbefore other hother).le
        · exact hle
        · exact hle.trans (hafter other hother)

/-! ## One step -/

variable [LawfulBEq κ]

omit [LawfulBEq κ] in
theorem creditAt_congr {fifo' : S3Fifo κ} {key : κ}
    (h : fifo'.entries[key]? = fifo.entries[key]?) :
    creditAt fifo'.entries key = creditAt fifo.entries key := by
  rw [creditAt, creditAt, h]

theorem entry_giveSecondChance (fifo : S3Fifo κ) (head : κ) (entry : S3FifoEntry) :
    (fifo.giveSecondChance head entry).entries[head]? = some (entry.charge 1) :=
  Std.HashMap.getElem?_insert_self

theorem entry_giveSecondChance_of_ne (fifo : S3Fifo κ) {head key : κ} (hne : key ≠ head)
    (entry : S3FifoEntry) :
    (fifo.giveSecondChance head entry).entries[key]? = fifo.entries[key]? :=
  getElem?_insert_of_ne _ _ hne

theorem entry_dropFromMain_of_ne (fifo : S3Fifo κ) {victim key : κ} (hne : key ≠ victim) :
    (fifo.dropFromMain victim).entries[key]? = fifo.entries[key]? :=
  getElem?_erase_of_ne _ hne

/-- Every key of the main queue has an entry. -/
def Indexed (fifo : S3Fifo κ) : Prop :=
  ∀ key ∈ fifo.main.toList, ∃ entry, fifo.entries[key]? = some entry

theorem Indexed.giveSecondChance (h : fifo.Indexed) (hmain : fifo.main.Valid) {head : κ}
    {entry : S3FifoEntry} : (fifo.giveSecondChance head entry).Indexed := by
  intro key hmem
  by_cases heq : key = head
  · rw [heq]
    exact ⟨_, entry_giveSecondChance fifo head entry⟩
  · rw [entry_giveSecondChance_of_ne fifo heq]
    exact h key ((hmain.mem_touch .back).1 hmem)

/-! ## The whole sweep -/

/-- The state after a sweep that evicts `victim`, which had `level` accesses to its credit. -/
structure Swept (fifo swept : S3Fifo κ) (before : List κ) (victim : κ) (after : List κ)
    (level : Nat) : Prop where
  valid_main : swept.main.Valid
  toList_main : swept.main.toList = after ++ before
  small_eq : swept.small = fifo.small
  ghosts_eq : swept.ghosts = fifo.ghosts
  entry_victim : swept.entries[victim]? = none
  entry_before : ∀ key ∈ before,
    swept.entries[key]? = (fifo.entries[key]?).map (·.charge (level + 1))
  entry_after : ∀ key ∈ after, swept.entries[key]? = (fifo.entries[key]?).map (·.charge level)
  entry_rest : ∀ key ∉ before ++ victim :: after, swept.entries[key]? = fifo.entries[key]?

/-- A key without an access to its credit is evicted at once. -/
theorem swept_dropFromMain (hmain : fifo.main.Valid) {victim : κ} {after : List κ}
    (hlist : fifo.main.toList = victim :: after) :
    Swept fifo (fifo.dropFromMain victim) [] victim after 0 where
  valid_main := hmain.erase victim
  toList_main := by
    change (fifo.main.erase victim).toList = after ++ []
    rw [hmain.toList_erase, hlist, List.erase_cons_head, List.append_nil]
  small_eq := rfl
  ghosts_eq := rfl
  entry_victim := Std.HashMap.getElem?_erase_self
  entry_before key hmem := absurd hmem List.not_mem_nil
  entry_after key hmem := by
    have hnodup := hmain.nodup_toList
    rw [hlist, List.nodup_cons] at hnodup
    have hne : key ≠ victim := fun heq ↦ hnodup.1 (heq ▸ hmem)
    simp [entry_dropFromMain_of_ne fifo hne]
  entry_rest key hnot := by
    have hne : key ≠ victim := fun heq ↦ hnot (by simp [heq])
    exact entry_dropFromMain_of_ne fifo hne

/-- The victim is passed over and falls behind the others, all of which are before it now. -/
theorem Swept.pass_victim {swept : S3Fifo κ} {victim : κ} {after : List κ} {level : Nat}
    {entry : S3FifoEntry} (hnot : victim ∉ after)
    (h : Swept (fifo.giveSecondChance victim entry) swept after victim [] level) :
    Swept fifo swept [] victim after (level + 1) where
  valid_main := h.valid_main
  toList_main := by rw [h.toList_main, List.nil_append, List.append_nil]
  small_eq := h.small_eq
  ghosts_eq := h.ghosts_eq
  entry_victim := h.entry_victim
  entry_before key hmem := absurd hmem List.not_mem_nil
  entry_after key hmem := by
    have hne : key ≠ victim := fun heq ↦ hnot (heq ▸ hmem)
    rw [h.entry_before key hmem, entry_giveSecondChance_of_ne fifo hne]
  entry_rest key hkey := by
    have hne : key ≠ victim := fun heq ↦ hkey (by simp [heq])
    have hout : key ∉ after ++ [victim] := by simpa [and_comm] using hkey
    rw [h.entry_rest key hout, entry_giveSecondChance_of_ne fifo hne]

/-- A key before the victim is passed over and is the last of those behind it now. -/
theorem Swept.pass_before {swept : S3Fifo κ} {head victim : κ} {before after : List κ}
    {level : Nat} {entry : S3FifoEntry} (hnodup : (head :: before ++ victim :: after).Nodup)
    (hentry : fifo.entries[head]? = some entry)
    (h : Swept (fifo.giveSecondChance head entry) swept before victim (after ++ [head]) level) :
    Swept fifo swept (head :: before) victim after level where
  valid_main := h.valid_main
  toList_main := by rw [h.toList_main, List.append_assoc, List.singleton_append]
  small_eq := h.small_eq
  ghosts_eq := h.ghosts_eq
  entry_victim := h.entry_victim
  entry_before key hmem := by
    rw [List.cons_append, List.nodup_cons] at hnodup
    rcases List.mem_cons.1 hmem with rfl | hmem
    · rw [h.entry_after key (by simp), entry_giveSecondChance, hentry, Option.map_some,
        Option.map_some, S3FifoEntry.charge_charge, Nat.add_comm]
    · have hne : key ≠ head := fun heq ↦ hnodup.1 (by simp [← heq, hmem])
      rw [h.entry_before key hmem, entry_giveSecondChance_of_ne fifo hne]
  entry_after key hmem := by
    rw [List.cons_append, List.nodup_cons] at hnodup
    have hne : key ≠ head := fun heq ↦ hnodup.1 (by simp [← heq, hmem])
    rw [h.entry_after key (by simp [hmem]), entry_giveSecondChance_of_ne fifo hne]
  entry_rest key hkey := by
    have hne : key ≠ head := fun heq ↦ hkey (by simp [heq])
    have hout : key ∉ before ++ victim :: (after ++ [head]) := by
      simp only [List.cons_append, List.mem_cons, List.mem_append] at hkey ⊢
      tauto
    rw [h.entry_rest key hout, entry_giveSecondChance_of_ne fifo hne]

theorem creditAt_giveSecondChance {head : κ} {entry : S3FifoEntry}
    (hentry : fifo.entries[head]? = some entry) (hne : entry.frequency ≠ 0) :
    creditAt (fifo.giveSecondChance head entry).entries head + 1 = creditAt fifo.entries head := by
  have hbefore : creditAt fifo.entries head = entry.frequency.toNat := by
    rw [creditAt, hentry, Option.elim_some]
  have hafter : creditAt (fifo.giveSecondChance head entry).entries head =
      (entry.frequency - 1).toNat := by
    rw [creditAt, giveSecondChance, Std.HashMap.getElem?_insert_self, Option.elim_some]
  obtain ⟨hpos, hlowered⟩ := toNat_sub_one hne
  omega

theorem creditAt_giveSecondChance_of_ne (fifo : S3Fifo κ) {head key : κ} (hne : key ≠ head)
    (entry : S3FifoEntry) :
    creditAt (fifo.giveSecondChance head entry).entries key = creditAt fifo.entries key :=
  creditAt_congr (entry_giveSecondChance_of_ne fifo hne entry)

/-! ## Assembly -/

/-- A key that is passed over keeps the victim the first of the least: it falls behind it, and if
it is the victim itself, the others are before it now. -/
theorem FirstLeast.pass_victim {victim : κ} {after : List κ} {entry : S3FifoEntry}
    (h : FirstLeast (creditAt fifo.entries) [] victim after) (hnot : victim ∉ after)
    (hentry : fifo.entries[victim]? = some entry) (hne : entry.frequency ≠ 0) :
    FirstLeast (creditAt (fifo.giveSecondChance victim entry).entries) after victim [] where
  before_lt key hmem := by
    have hkey : key ≠ victim := fun heq ↦ hnot (heq ▸ hmem)
    have hle := h.after_le key hmem
    have hcredit := creditAt_giveSecondChance hentry hne
    rw [creditAt_giveSecondChance_of_ne fifo hkey]
    omega
  after_le key hmem := absurd hmem List.not_mem_nil

theorem FirstLeast.pass_before {head victim : κ} {before after : List κ} {entry : S3FifoEntry}
    (h : FirstLeast (creditAt fifo.entries) (head :: before) victim after)
    (hnodup : (head :: before ++ victim :: after).Nodup)
    (hentry : fifo.entries[head]? = some entry) (hne : entry.frequency ≠ 0) :
    FirstLeast (creditAt (fifo.giveSecondChance head entry).entries) before victim
      (after ++ [head]) := by
  rw [List.cons_append, List.nodup_cons] at hnodup
  have hother {key : κ} (hmem : key ∈ before ++ victim :: after) :
      creditAt (fifo.giveSecondChance head entry).entries key = creditAt fifo.entries key := by
    have hkey : key ≠ head := by
      rintro rfl
      exact hnodup.1 hmem
    exact creditAt_giveSecondChance_of_ne fifo hkey entry
  have hvictim := hother (List.mem_append_right before List.mem_cons_self)
  constructor
  · intro key hmem
    rw [hvictim, hother (by simp [hmem])]
    exact h.before_lt key (List.mem_cons_of_mem _ hmem)
  · intro key hmem
    rw [hvictim]
    rcases List.mem_append.1 hmem with hmem | hmem
    · rw [hother (by simp [hmem])]
      exact h.after_le key hmem
    · rw [List.mem_singleton.1 hmem]
      have hlt := h.before_lt head List.mem_cons_self
      have hcredit := creditAt_giveSecondChance hentry hne
      omega

/-- A sweep with more fuel than there is credit evicts the first of the least keys. -/
theorem swept_sweep (hmain : fifo.main.Valid) (hindexed : fifo.Indexed)
    {before : List κ} {victim : κ} {after : List κ}
    (hlist : fifo.main.toList = before ++ victim :: after)
    (hleast : FirstLeast (creditAt fifo.entries) before victim after) {fuel : Nat}
    (hfuel : creditOf fifo.entries fifo.main.toList < fuel) :
    Swept fifo (evictFromMain.sweep fifo fuel) before victim after
      (creditAt fifo.entries victim) := by
  -- Each key that is passed over goes from the head of the queue to its tail, and the split of the
  -- queue with it, so the victim stays the same until it is at the head with nothing to its credit.
  induction fuel generalizing fifo before victim after with
  | zero => exact absurd hfuel (Nat.not_lt_zero _)
  | succ fuel ih =>
    have hnodup := hmain.nodup_toList
    rw [hlist] at hnodup
    cases before with
    | nil =>
      obtain ⟨entry, hentry⟩ := hindexed victim (by simp [hlist])
      rw [sweep_succ hmain hlist hentry]
      split_ifs with hzero
      · have hcredit : creditAt fifo.entries victim = 0 := by
          rw [creditAt, hentry, Option.elim_some, hzero]
          rfl
        rw [hcredit]
        exact swept_dropFromMain hmain hlist
      · have hnot : victim ∉ after := (List.nodup_cons.1 hnodup).1
        have hmoved := toList_giveSecondChance hmain hlist entry
        have hcredit := creditAt_giveSecondChance hentry hzero
        have hfuel' := creditOf_giveSecondChance hmain hlist hentry hzero
        have hswept := ih (hmain.touch .back victim) (hindexed.giveSecondChance hmain) hmoved
          (hleast.pass_victim hnot hentry hzero) (by omega)
        rw [← hcredit]
        exact hswept.pass_victim hnot
    | cons head before =>
      have hpos := hleast.before_lt head List.mem_cons_self
      obtain ⟨entry, hentry⟩ := hindexed head (by simp [hlist])
      have hzero : entry.frequency ≠ 0 := by
        intro hzero
        rw [creditAt, creditAt, hentry, Option.elim_some, hzero] at hpos
        exact Nat.not_lt_zero _ hpos
      rw [sweep_succ hmain hlist hentry, if_neg hzero]
      have hmoved : (fifo.giveSecondChance head entry).main.toList =
          before ++ victim :: (after ++ [head]) := by
        calc
          _ = (before ++ victim :: after) ++ [head] := toList_giveSecondChance hmain hlist entry
          _ = _ := by rw [List.append_assoc, List.cons_append]
      have hvictim : victim ≠ head := by
        rintro rfl
        exact Nat.lt_irrefl _ hpos
      have hfuel' := creditOf_giveSecondChance hmain hlist hentry hzero
      have hswept := ih (hmain.touch .back head) (hindexed.giveSecondChance hmain) hmoved
        (hleast.pass_before hnodup hentry hzero) (by omega)
      rw [creditAt_giveSecondChance_of_ne fifo hvictim] at hswept
      exact hswept.pass_before hnodup hentry

/-- The clock sweep evicts the first of the least keys of a main queue that holds any. -/
theorem swept_evictFromMain (hmain : fifo.main.Valid) (hindexed : fifo.Indexed) {before : List κ}
    {victim : κ} {after : List κ} (hlist : fifo.main.toList = before ++ victim :: after)
    (hleast : FirstLeast (creditAt fifo.entries) before victim after) :
    Swept fifo fifo.evictFromMain before victim after (creditAt fifo.entries victim) := by
  have hcredit := creditOf_add_length_le fifo.entries fifo.main.toList
  have hmem : victim ∈ fifo.main.toList := by simp [hlist]
  have hpos : 0 < fifo.main.toList.length := List.length_pos_of_mem hmem
  rw [← hmain.length_eq] at hcredit hpos
  have hfuel : creditOf fifo.entries fifo.main.toList < UInt8.size * fifo.main.length := by
    omega
  exact swept_sweep hmain hindexed hlist hleast hfuel

/-- A sweep takes one key out of what is tracked. -/
theorem Swept.mem_entries {swept : S3Fifo κ} {before after : List κ} {victim key : κ}
    {level : Nat} (h : Swept fifo swept before victim after level) :
    key ∈ swept.entries ↔ key ∈ fifo.entries ∧ key ≠ victim := by
  rw [Std.HashMap.mem_iff_isSome_getElem?, Std.HashMap.mem_iff_isSome_getElem?]
  by_cases hvictim : key = victim
  · simp [hvictim, h.entry_victim]
  · by_cases hbefore : key ∈ before
    · simp [h.entry_before key hbefore, hvictim]
    · by_cases hafter : key ∈ after
      · simp [h.entry_after key hafter, hvictim]
      · simp [h.entry_rest key (by simp [hbefore, hvictim, hafter]), hvictim]

end S3Fifo

end KeyHeat

import KeyHeat.Proofs.Policy.S3Fifo.Sweep

/-!
# The clock sweep as a rotation of the main queue

The clock sweep is a loop that has no bound of its own. Here it is a relation between states, so
that a sweep that ends is one that stands in the relation to some state. From a main queue that
holds any key the loop always ends, and its outcome depends on the keys of the queue and their
credits alone: the keys behind the victim and those before it change places.
-/

namespace KeyHeat.S3Fifo

variable {κ : Type} [BEq κ] [Hashable κ] {fifo swept : S3Fifo κ}

/-! ## The loop -/

/-- How one turn of the loop ends. -/
inductive Turn (κ : Type) [BEq κ] [Hashable κ] where
  | done (fifo : S3Fifo κ)
  | next (fifo : S3Fifo κ)

/-- One turn of the loop: the key at the head of the main queue is evicted or passed over. -/
def turn (fifo : S3Fifo κ) : Turn κ :=
  match fifo.main.peek? .front with
  | none => .done fifo
  | some head =>
    match fifo.entry? head with
    | none => .next { fifo with main := fifo.main.erase head }
    | some entry =>
      if entry.frequency = 0 then .done (fifo.dropFromMain head)
      else .next (fifo.giveSecondChance head entry)

/-- The loop that begins in the first state ends in the second. -/
inductive SweepsTo : S3Fifo κ → S3Fifo κ → Prop where
  | done {fifo swept : S3Fifo κ} (hturn : fifo.turn = .done swept) : SweepsTo fifo swept
  | next {fifo moved swept : S3Fifo κ} (hturn : fifo.turn = .next moved)
    (hrest : SweepsTo moved swept) : SweepsTo fifo swept

theorem SweepsTo.unique {other : S3Fifo κ} (h : SweepsTo fifo swept)
    (hother : SweepsTo fifo other) : swept = other := by
  induction h with
  | done hturn =>
    cases hother with
    | done hturn' => exact Turn.done.inj (hturn.symm.trans hturn')
    | next hturn' => exact nomatch hturn.symm.trans hturn'
  | next hturn _ ih =>
    cases hother with
    | done hturn' => exact nomatch hturn.symm.trans hturn'
    | next hturn' hrest =>
      obtain rfl := Turn.next.inj (hturn.symm.trans hturn')
      exact ih hrest

theorem turn_eq (hmain : fifo.main.Valid) {head : κ} {rest : List κ}
    (hlist : fifo.main.toList = head :: rest) {entry : S3FifoEntry}
    (hentry : fifo.entries[head]? = some entry) :
    fifo.turn = if entry.frequency = 0 then .done (fifo.dropFromMain head)
      else .next (fifo.giveSecondChance head entry) := by
  have hlookup : fifo.entry? head = some entry := hentry
  rw [turn, hmain.peek?_front, hlist, List.head?_cons]
  simp only [hlookup]

section Termination

variable [LawfulBEq κ]

/-- The loop ends, because each key that is passed over loses an access, and it ends where a sweep
with more fuel than there is credit does. -/
theorem sweepsTo_sweep (hmain : fifo.main.Valid) (hindexed : fifo.Indexed)
    (hne : fifo.main.toList ≠ []) {fuel : Nat}
    (hfuel : creditOf fifo.entries fifo.main.toList < fuel) :
    SweepsTo fifo (evictFromMain.sweep fifo fuel) := by
  induction fuel generalizing fifo with
  | zero => exact absurd hfuel (Nat.not_lt_zero _)
  | succ fuel ih =>
    obtain ⟨head, rest, hlist⟩ := List.exists_cons_of_ne_nil hne
    obtain ⟨entry, hentry⟩ := hindexed head (by simp [hlist])
    have hturn := turn_eq hmain hlist hentry
    rw [sweep_succ hmain hlist hentry]
    split_ifs at hturn ⊢ with hzero
    · exact .done hturn
    · -- The key goes to the tail with one access less: the credit of the queue falls with the fuel.
      have hcredit := creditOf_giveSecondChance hmain hlist hentry hzero
      have hnonempty : (fifo.giveSecondChance head entry).main.toList ≠ [] := by
        rw [toList_giveSecondChance hmain hlist entry]
        exact List.append_ne_nil_of_right_ne_nil rest (List.cons_ne_nil head [])
      exact .next hturn (ih (hmain.touch .back head) (hindexed.giveSecondChance hmain)
        hnonempty (by omega))

theorem sweepsTo_evictFromMain (hmain : fifo.main.Valid) (hindexed : fifo.Indexed)
    (hne : fifo.main.toList ≠ []) : SweepsTo fifo fifo.evictFromMain := by
  have hcredit := creditOf_add_length_le fifo.entries fifo.main.toList
  have hpos := List.length_pos_of_ne_nil hne
  rw [← hmain.length_eq] at hcredit hpos
  have hfuel : creditOf fifo.entries fifo.main.toList < UInt8.size * fifo.main.length := by
    omega
  exact sweepsTo_sweep hmain hindexed hne hfuel

end Termination

/-! ## The queue with its credits -/

/-- The main queue holds these keys from its head to its tail, with these accesses to their
credit. -/
structure HoldsMain (fifo : S3Fifo κ) (queue : List (κ × Nat)) : Prop where
  valid_main : fifo.main.Valid
  toList_eq : fifo.main.toList = queue.map Prod.fst
  credit_eq : ∀ item ∈ queue, (fifo.frequency? item.1).map UInt8.toNat = some item.2

/-- The item of a key that has lost some accesses to its credit. -/
def lower (amount : Nat) (item : κ × Nat) : κ × Nat := (item.1, item.2 - amount)

/-- The sweep takes the victim out of what is tracked and leaves everything alone but the main
queue and the credits of its keys. -/
structure Evicts (fifo swept : S3Fifo κ) (victim : κ) : Prop where
  mem_entries : ∀ key, key ∈ swept.entries ↔ key ∈ fifo.entries ∧ key ≠ victim
  lastAccess_eq : ∀ key ≠ victim, swept.lastAccess? key = fifo.lastAccess? key
  entry_eq : ∀ key ∉ fifo.main.toList, swept.entry? key = fifo.entry? key
  small_eq : swept.small = fifo.small
  ghosts_eq : swept.ghosts = fifo.ghosts
  frame_eq : swept.frame = fifo.frame

variable {queue : List (κ × Nat)}

theorem HoldsMain.entry (h : fifo.HoldsMain queue) {item : κ × Nat} (hmem : item ∈ queue) :
    ∃ entry, fifo.entries[item.1]? = some entry ∧ entry.frequency.toNat = item.2 := by
  have hcredit := h.credit_eq item hmem
  rw [frequency?, Option.map_map, Option.map_eq_some_iff] at hcredit
  exact hcredit

theorem HoldsMain.indexed (h : fifo.HoldsMain queue) : fifo.Indexed := by
  intro key hmem
  rw [h.toList_eq, List.mem_map] at hmem
  obtain ⟨item, hitem, rfl⟩ := hmem
  obtain ⟨entry, hentry, -⟩ := h.entry hitem
  exact ⟨entry, hentry⟩

theorem HoldsMain.creditAt_eq (h : fifo.HoldsMain queue) {item : κ × Nat} (hmem : item ∈ queue) :
    creditAt fifo.entries item.1 = item.2 := by
  obtain ⟨entry, hentry, hcredit⟩ := h.entry hmem
  rw [creditAt, hentry, Option.elim_some, hcredit]

/-- The first of the least items is that of the first of the least keys. -/
theorem HoldsMain.firstLeast {before after : List (κ × Nat)} {victim : κ × Nat}
    (h : fifo.HoldsMain (before ++ victim :: after))
    (hleast : FirstLeast Prod.snd before victim after) :
    FirstLeast (creditAt fifo.entries) (before.map Prod.fst) victim.1 (after.map Prod.fst) := by
  have hvictim : creditAt fifo.entries victim.1 = victim.2 := h.creditAt_eq (by simp)
  constructor
  · intro key hmem
    obtain ⟨item, hitem, rfl⟩ := List.mem_map.1 hmem
    rw [hvictim, h.creditAt_eq (by simp [hitem])]
    exact hleast.before_lt item hitem
  · intro key hmem
    obtain ⟨item, hitem, rfl⟩ := List.mem_map.1 hmem
    rw [hvictim, h.creditAt_eq (by simp [hitem])]
    exact hleast.after_le item hitem

/-- A key that has paid for the victim's credit, and maybe for being passed over once more, has as
many accesses less. -/
theorem HoldsMain.credit_charge (h : fifo.HoldsMain queue) {item : κ × Nat} (hmem : item ∈ queue)
    {amount : Nat} (hle : amount ≤ item.2)
    (hcharged : swept.entries[item.1]? = (fifo.entries[item.1]?).map (·.charge amount)) :
    (swept.frequency? (lower amount item).1).map UInt8.toNat = some (lower amount item).2 := by
  obtain ⟨entry, hentry, hcredit⟩ := h.entry hmem
  have hbound : amount < UInt8.size := by
    calc
      amount ≤ entry.frequency.toNat := hcredit ▸ hle
      _ < UInt8.size := entry.frequency.toNat_lt
  have hamount : (UInt8.ofNat amount).toNat = amount := UInt8.toNat_ofNat_of_lt hbound
  have hlower : (entry.frequency - UInt8.ofNat amount).toNat = item.2 - amount := by
    have hle' : UInt8.ofNat amount ≤ entry.frequency := by
      rw [UInt8.le_iff_toNat_le, hamount, hcredit]
      exact hle
    rw [UInt8.toNat_sub_of_le _ _ hle', hamount, hcredit]
  calc
    (swept.frequency? item.1).map UInt8.toNat = some (entry.charge amount).frequency.toNat := by
      rw [frequency?, entry?, hcharged, hentry]
      rfl
    _ = some (item.2 - amount) := congrArg some hlower

section Sweep

variable {before after : List (κ × Nat)} {victim : κ} {level : Nat}

/-- The keys behind the victim come to the head of the queue, those before it go to the tail. -/
theorem HoldsMain.sweep (h : fifo.HoldsMain (before ++ (victim, level) :: after))
    (hleast : FirstLeast Prod.snd before (victim, level) after)
    (hswept : Swept fifo swept (before.map Prod.fst) victim (after.map Prod.fst) level) :
    swept.HoldsMain (after.map (lower level) ++ before.map (lower (level + 1))) where
  valid_main := hswept.valid_main
  toList_eq := by
    rw [hswept.toList_main, List.map_append, List.map_map, List.map_map]
    rfl
  credit_eq item hmem := by
    rcases List.mem_append.1 hmem with hmem | hmem
    · obtain ⟨item, hitem, rfl⟩ := List.mem_map.1 hmem
      exact h.credit_charge (by simp [hitem]) (hleast.after_le item hitem)
        (hswept.entry_after item.1 (List.mem_map_of_mem hitem))
    · obtain ⟨item, hitem, rfl⟩ := List.mem_map.1 hmem
      exact h.credit_charge (by simp [hitem]) (hleast.before_lt item hitem)
        (hswept.entry_before item.1 (List.mem_map_of_mem hitem))

variable [LawfulBEq κ]

/-- A key of which only the credit changes keeps its last access. -/
theorem Swept.lastAccess_eq {before after : List κ} (h : Swept fifo swept before victim after level)
    {key : κ} (hne : key ≠ victim) : swept.lastAccess? key = fifo.lastAccess? key := by
  have hkept (amount : Nat) :
      ((fifo.entries[key]?).map (·.charge amount)).map (·.lastAccess) =
        (fifo.entries[key]?).map (·.lastAccess) := Option.map_map _ _ _
  unfold lastAccess? entry?
  by_cases hbefore : key ∈ before
  · rw [h.entry_before key hbefore, hkept]
  · by_cases hafter : key ∈ after
    · rw [h.entry_after key hafter, hkept]
    · rw [h.entry_rest key (by simp [hbefore, hne, hafter])]

theorem Swept.evicts {before after : List κ} (h : Swept fifo swept before victim after level)
    (hlist : fifo.main.toList = before ++ victim :: after) (hframe : swept.frame = fifo.frame) :
    Evicts fifo swept victim where
  mem_entries _ := h.mem_entries
  lastAccess_eq _ hne := h.lastAccess_eq hne
  entry_eq key hnot := h.entry_rest key (hlist ▸ hnot)
  small_eq := h.small_eq
  ghosts_eq := h.ghosts_eq
  frame_eq := hframe

end Sweep

/-! ## The closed form -/

variable [LawfulBEq κ]

/-- The clock sweep of a main queue that holds any key ends. It evicts the first key with the
fewest accesses to its credit; the keys behind it come first and have lost as many, the keys before
it come after them and have lost one more, and nothing else changes. -/
theorem evictFromMain_rotates (hne : queue ≠ []) (h : fifo.HoldsMain queue) :
    (∀ swept, SweepsTo fifo swept ↔ swept = fifo.evictFromMain) ∧
    ∃ before victim level after, queue = before ++ (victim, level) :: after ∧
      FirstLeast Prod.snd before (victim, level) after ∧
      fifo.evictFromMain.HoldsMain (after.map (lower level) ++ before.map (lower (level + 1))) ∧
      Evicts fifo fifo.evictFromMain victim := by
  have hmain := h.valid_main
  have hnonempty : fifo.main.toList ≠ [] := by
    rw [h.toList_eq]
    exact List.map_eq_nil_iff.not.2 hne
  have hends := sweepsTo_evictFromMain hmain h.indexed hnonempty
  constructor
  · intro swept
    constructor
    · exact fun hswept ↦ hswept.unique hends
    · rintro rfl
      exact hends
  · obtain ⟨before, ⟨victim, level⟩, after, rfl, hleast⟩ := exists_firstLeast Prod.snd hne
    have hlist : fifo.main.toList = before.map Prod.fst ++ victim :: after.map Prod.fst := by
      rw [h.toList_eq, List.map_append, List.map_cons]
    have hswept := swept_evictFromMain hmain h.indexed hlist (h.firstLeast hleast)
    have hlevel : creditAt fifo.entries (victim, level).1 = level := h.creditAt_eq (by simp)
    rw [hlevel] at hswept
    exact ⟨before, victim, level, after, rfl, hleast, h.sweep hleast hswept,
      hswept.evicts hlist (frame_sweep fifo _)⟩

/-- Keys 1, 2 and 3 are in the main queue with three, one and two accesses to their credit, so
key 2 is evicted and key 3 is at the head then. -/
def busy : S3Fifo UInt64 :=
  serve.run (ofQuotas 1 3 4) [.put 1, .get 1, .get 1, .get 1, .put 2, .get 2, .put 3, .get 3,
    .get 3, .put 4]

theorem evictFromMain_rotates_busy :
    [((1 : UInt64), 3), (2, 1), (3, 2)] ≠ [] ∧ busy.HoldsMain [(1, 3), (2, 1), (3, 2)] ∧
      busy.evictFromMain.main.toList = [3, 1] ∧
      (∀ swept, SweepsTo busy swept ↔ swept = busy.evictFromMain) ∧
      ∃ before victim level after,
        [((1 : UInt64), 3), (2, 1), (3, 2)] = before ++ (victim, level) :: after ∧
        FirstLeast Prod.snd before (victim, level) after ∧
        busy.evictFromMain.HoldsMain (after.map (lower level) ++ before.map (lower (level + 1))) ∧
        Evicts busy busy.evictFromMain victim := by
  have hne : [((1 : UInt64), 3), (2, 1), (3, 2)] ≠ [] := by decide
  have hholds : busy.HoldsMain [((1 : UInt64), 3), (2, 1), (3, 2)] := {
    valid_main := ((valid_ofQuotas 1 3 4).run _).queues.valid_main
    toList_eq := by cbv
    credit_eq := by
      rw [List.forall_mem_cons, List.forall_mem_cons, List.forall_mem_singleton]
      exact ⟨by cbv, by cbv, by cbv⟩ }
  have hlist : busy.evictFromMain.main.toList = [3, 1] := by cbv
  exact ⟨hne, hholds, hlist, evictFromMain_rotates hne hholds⟩

end KeyHeat.S3Fifo

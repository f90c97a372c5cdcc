import KeyHeat.Proofs.Container.Ends
import KeyHeat.Proofs.Policy.Lirs.Shedding

/-!
# A HIR key takes the place of the last LIR key

In a valid state every key is in place, no quota is exceeded, and HIR keys are there only once the
LIR quota is used up. A HIR key that is promoted then goes to the front of the hot keys, and the
last of them, which is the bottom of the pruned stack, becomes resident HIR. With a quota of none
that is the promoted key itself.
-/

namespace KeyHeat

/-! ## Up and down -/

namespace LirsView

variable {κ : Type} [BEq κ] {view : LirsView κ} {key : κ}

/-- A LIR key of the stack becomes resident HIR. -/
def demote (view : LirsView κ) (key : κ) : LirsView κ :=
  ((view.delist .stack key).enlist .queue key).setStatus key (some .resident)

/-- A key of the stack becomes LIR. -/
def raise (view : LirsView κ) (key : κ) : LirsView κ :=
  (view.lift .stack key).setStatus key (some .lir)

theorem keys_demote_queue (view : LirsView κ) (key : κ) :
    (view.demote key).keys .queue = key :: view.keys .queue := rfl

theorem keys_demote_ghosts (view : LirsView κ) (key : κ) :
    (view.demote key).keys .ghosts = view.keys .ghosts := rfl

variable [LawfulBEq κ]

/-- The bottom of the stack, if it is LIR, is the last of the hot keys. -/
theorem Placed.demote (h : view.Placed none) (hlast : (view.keys .stack).getLast? = some key)
    (hlir : view.status? key = some .lir) :
    (view.demote key).Placed none ∧ (view.demote key).hot = view.hot.dropLast := by
  obtain ⟨-, hqueue, hghosts, hmoving⟩ := h.not_mem_of_lir hlir
  have hself : (view.demote key).status? key = some .resident := status?_setStatus_self ..
  have hgone : key ∉ (view.delist .stack key).keys .stack := (h.nodup .stack).not_mem_erase
  have hsame : SameOff key view (view.demote key) :=
    ((sameOff_delist view .stack key).trans (sameOff_enlist _ .queue key)).trans
      (sameOff_setStatus _ key _)
  have hhotLast : view.hot.getLast? = some key :=
    getLast?_of_sublist (h.nodup .stack) List.filter_sublist hlast (h.mem_hot.2 hlir)
  constructor
  · apply h.update hsame
    · exact nodup_enlist (nodup_delist h.nodup .stack key) hqueue
    · exact fun _ _ ↦ Iff.rfl
    · rw [hself]
      exact ⟨List.mem_cons_self, hghosts, hmoving⟩
  · calc
      _ = (view.delist .stack key).hot :=
        hot_setStatus (fun hmem ↦ hgone (LirsView.mem_hot.1 hmem).1) (.inl hgone)
      _ = view.hot.erase key := hot_delist_stack view key
      _ = view.hot.dropLast := erase_eq_dropLast h.nodup_hot hhotLast

/-- The key becomes the first of the hot keys. -/
theorem Placed.raise (h : (view.setStatus key (some .lir)).Placed none)
    (hnot : view.status? key ≠ some .lir) :
    (view.raise key).Placed none ∧ (view.raise key).hot = key :: view.hot := by
  have hself : (view.setStatus key (some .lir)).status? key = some .lir :=
    status?_setStatus_self ..
  have hmem := (h.not_mem_of_lir hself).1
  have hnodup : (view.keys .stack).Nodup := h.nodup .stack
  refine ⟨h.lift hmem, ?_⟩
  calc
    _ = key :: (view.setStatus key (some .lir)).hot.erase key := hot_lift_of_lir hself
    _ = key :: view.hot.erase key := by rw [erase_hot_setStatus hnodup]
    _ = key :: view.hot := by
      rw [List.erase_of_not_mem fun hhot ↦ hnot (LirsView.mem_hot.1 hhot).2]

end LirsView

namespace Lirs

variable {κ : Type} [BEq κ] [Hashable κ]

/-- All keys are in place and all quotas are kept. -/
structure Valid (lirs : Lirs κ) : Prop where
  arranged : lirs.Arranged none
  lirCount_eq : lirs.lirCount = lirs.hotKeys.length
  lirCount_le : lirs.lirCount ≤ lirs.lirQuota
  queue_le : lirs.length .queue ≤ lirs.residentQuota
  size_le : lirs.size ≤ lirs.capacity
  ghosts_le : lirs.length .ghosts ≤ lirs.ghostQuota
  full : ∀ key : κ, key ∈ lirs.keys .queue ∨ key ∈ lirs.keys .ghosts →
    lirs.lirCount = lirs.lirQuota
  ends : 0 < lirs.lirCount → lirs.EndsInLir
  lirQuota_le : lirs.lirQuota ≤ lirs.capacity - 1
  residentQuota_pos : 0 < lirs.residentQuota
  capacity_pos : ∀ key : κ, lirs.status? key ≠ none → 0 < lirs.capacity

/-- The second state is a valid one of the same quotas, with the given hot keys, in which `key` is
resident. -/
structure Serves (lirs lirs' : Lirs κ) (key : κ) (hotKeys : List κ) : Prop where
  valid : lirs'.Valid
  quotas : lirs.SameQuotas lirs'
  hotKeys_eq : lirs'.hotKeys = hotKeys
  resident : lirs'.status? key = some .lir ∨ lirs'.status? key = some .resident

variable {lirs lirs' : Lirs κ} {moving : Option κ} {key : κ} {id : SlotId}

/-! ## The bottom of the stack -/

theorem Sheds.endsInLir (h : lirs.Sheds lirs') (harranged : lirs.Arranged moving)
    (hhot : lirs.view.hot ≠ []) (hends : lirs.EndsInLir) : lirs'.EndsInLir := by
  have hlast := List.getLast?_eq_some_getLast (LirsView.stack_ne_nil hhot)
  have hlir := hends _ hlast
  have hkept : (lirs.view.keys .stack).getLast (LirsView.stack_ne_nil hhot) ∈ lirs'.view.hot := by
    rw [h.shown.hot_eq]
    exact harranged.placed.mem_hot.2 hlir
  intro bottom hbottom
  change (lirs'.view.keys .stack).getLast? = some bottom at hbottom
  rw [getLast?_of_sublist (harranged.placed.nodup .stack) h.shown.stack_sublist hlast
    (LirsView.mem_hot.1 hkept).1] at hbottom
  cases hbottom
  exact h.shown.status_of_lir harranged.placed hlir

/-- In a state without HIR keys every key of the stack is LIR. -/
theorem Arranged.endsInLir (h : lirs.Arranged none)
    (hnone : ∀ key : κ, ¬(key ∈ lirs.keys .queue ∨ key ∈ lirs.keys .ghosts)) :
    lirs.EndsInLir := by
  intro bottom hbottom
  have hmem : bottom ∈ lirs.view.keys .stack := List.mem_of_getLast? hbottom
  obtain ⟨hqueue, hghosts⟩ := not_or.1 (hnone bottom)
  by_contra hlir
  exact hghosts (h.placed.mem_ghosts_of_mem_stack hmem hlir hqueue)

/-- A key put on top of a stack leaves its bottom alone, unless the stack was empty. -/
theorem EndsInLir.push (h : lirs.EndsInLir) (hstack : lirs'.keys .stack = key :: lirs.keys .stack)
    (hothers : ∀ other ∈ lirs.keys .stack, lirs'.status? other = lirs.status? other)
    (hkey : lirs.keys .stack = [] → lirs'.status? key = some .lir) : lirs'.EndsInLir := by
  intro bottom hbottom
  rw [hstack, List.getLast?_cons] at hbottom
  cases hlast : (lirs.keys .stack).getLast? with
  | none =>
    rw [hlast] at hbottom
    cases hbottom
    exact hkey (List.getLast?_eq_none_iff.1 hlast)
  | some last =>
    rw [hlast] at hbottom
    cases hbottom
    exact (hothers last (List.mem_of_getLast? hlast)).trans (h last hlast)

/-! ## Counting the hot keys -/

theorem Valid.lirCount_lt (h : lirs.Valid) (hpos : 0 < lirs.capacity) :
    lirs.lirCount < lirs.capacity := by
  have hle := h.lirCount_le
  have hquota := h.lirQuota_le
  omega

theorem Valid.hot_ne_nil (h : lirs.Valid) (hpos : 0 < lirs.lirCount) : lirs.view.hot ≠ [] := by
  rw [h.lirCount_eq, h.arranged.hotKeys_eq] at hpos
  exact List.ne_nil_of_length_pos hpos

theorem Valid.mem_hotKeys_iff (h : lirs.Valid) :
    key ∈ lirs.hotKeys ↔ lirs.status? key = some .lir := by
  rw [h.arranged.hotKeys_eq]
  exact h.arranged.placed.mem_hot

theorem Valid.mem_queue (h : lirs.Valid) :
    key ∈ lirs.keys .queue ↔ lirs.status? key = some .resident := h.arranged.placed.mem_queue

theorem Valid.mem_ghosts (h : lirs.Valid) :
    key ∈ lirs.keys .ghosts ↔ lirs.status? key = some .nonResident := h.arranged.placed.mem_ghosts

theorem Valid.mem_status_iff (h : lirs.Valid) :
    lirs.status? key ≠ none ↔
      key ∈ lirs.hotKeys ∨ key ∈ lirs.keys .queue ∨ key ∈ lirs.keys .ghosts := by
  rw [h.mem_hotKeys_iff, h.mem_queue, h.mem_ghosts]
  rcases lirs.status? key with _ | _ | _ | _ <;> simp

/-- A state with the quotas of a valid one is valid if it keeps them. -/
theorem Valid.of_sameQuotas (h : lirs.Valid) (hpos : 0 < lirs.capacity)
    (hquotas : lirs.SameQuotas lirs') (harranged : lirs'.Arranged none)
    (hcount : lirs'.lirCount = lirs'.hotKeys.length) (hle : lirs'.lirCount ≤ lirs.lirQuota)
    (hqueue : lirs'.length .queue ≤ lirs.residentQuota)
    (hsize : lirs'.lirCount + lirs'.length .queue ≤ lirs.capacity)
    (hghosts : lirs'.length .ghosts ≤ lirs.ghostQuota)
    (hfull : ∀ key : κ, key ∈ lirs'.keys .queue ∨ key ∈ lirs'.keys .ghosts →
      lirs'.lirCount = lirs.lirQuota)
    (hends : 0 < lirs'.lirCount → lirs'.EndsInLir) : lirs'.Valid where
  arranged := harranged
  lirCount_eq := hcount
  lirCount_le := by rwa [hquotas.lirQuota_eq]
  queue_le := by rwa [hquotas.residentQuota_eq]
  size_le := by rwa [hquotas.capacity_eq]
  ghosts_le := by rwa [hquotas.ghostQuota_eq]
  full key hmem := by rw [hfull key hmem, hquotas.lirQuota_eq]
  ends := hends
  lirQuota_le := by
    rw [hquotas.lirQuota_eq, hquotas.capacity_eq]
    exact h.lirQuota_le
  residentQuota_pos := by
    rw [hquotas.residentQuota_eq]
    exact h.residentQuota_pos
  capacity_pos _ _ := by rwa [hquotas.capacity_eq]

/-! ## The exchange at the bottom of the stack -/

variable [LawfulBEq κ]

/-- The state with a node of the stack demoted. -/
def demote (lirs : Lirs κ) (id : SlotId) : Lirs κ :=
  let popped := lirs.delist .stack id (lirs.handle? .stack id)
  { (popped.enlist .queue id).setStatus id .resident with lirCount := lirs.lirCount - 1 }

omit [LawfulBEq κ] in
theorem sameQuotas_demote (lirs : Lirs κ) (id : SlotId) : lirs.SameQuotas (lirs.demote id) :=
  ⟨rfl, rfl, rfl, rfl⟩

/-- The bottom of the stack, if it is LIR, becomes resident HIR. -/
theorem Arranged.demote (h : lirs.Arranged none)
    (hlast : (lirs.keys .stack).getLast? = some key) (hid : lirs.index[key]? = some id)
    (hlir : lirs.status? key = some .lir) :
    (lirs.demote id).Arranged none ∧ (lirs.demote id).view = lirs.view.demote key ∧
      lirs.popBack .stack = (some id, lirs.delist .stack id (lirs.handle? .stack id)) := by
  obtain ⟨id', hid', hpop⟩ := h.wired.popBack hlast
  obtain rfl : id = id' := Option.some_inj.1 (hid.symm.trans hid')
  obtain ⟨hpopped, hpoppedView⟩ := h.wired.delist hid (List.mem_of_getLast? hlast)
  have hqueue : key ∉ (lirs.delist .stack id (lirs.handle? .stack id)).keys .queue := by
    rw [keys_of_view hpoppedView]
    exact (h.placed.not_mem_of_lir hlir).2.1
  obtain ⟨hqueued, hqueuedView⟩ := hpopped.enlist hid hqueue
  obtain ⟨hmarked, hmarkedView⟩ := hqueued.setStatus hid .resident
  have hview : (lirs.demote id).view = lirs.view.demote key := by
    rw [LirsView.demote, ← hpoppedView, ← hqueuedView, ← hmarkedView]
    rfl
  exact ⟨⟨hmarked.withCount _, hview ▸ (h.placed.demote hlast hlir).1⟩, hview, hpop⟩

omit [LawfulBEq κ] in
theorem demoteExcess_one
    (hpop : lirs.popBack .stack = (some id, lirs.delist .stack id (lirs.handle? .stack id))) :
    rebalance.demoteExcess lirs 1 = (lirs.demote id).prune := by
  rw [rebalance.demoteExcess, hpop]
  rfl

/-- With one LIR key too many, rebalancing turns the last of the hot keys into a resident HIR
key. -/
theorem Arranged.rebalance (h : lirs.Arranged none)
    (hcount : lirs.lirCount = lirs.hotKeys.length) (hexcess : lirs.lirCount = lirs.lirQuota + 1) :
    lirs.rebalance.Arranged none ∧ lirs.SameQuotas lirs.rebalance ∧
      lirs.rebalance.hotKeys = lirs.hotKeys.dropLast ∧
      lirs.rebalance.lirCount = lirs.lirQuota ∧
      lirs.rebalance.length .queue = lirs.length .queue + 1 ∧
      lirs.rebalance.length .ghosts ≤ lirs.length .ghosts ∧ lirs.rebalance.EndsInLir ∧
      ∀ key : κ, lirs.status? key = some .lir →
        lirs.rebalance.status? key = some .lir ∨ lirs.rebalance.status? key = some .resident := by
  obtain ⟨hpruned, hsheds, hqueue, hghosts, hends⟩ := h.prune
  have hhotPruned := hsheds.hotKeys_eq h hpruned
  have hne : lirs.prune.view.hot ≠ [] := by
    intro hnil
    rw [← hhotPruned, hpruned.hotKeys_eq, hnil, List.length_nil] at hcount
    omega
  obtain ⟨bottom, hlast⟩ : ∃ bottom, (lirs.prune.keys .stack).getLast? = some bottom :=
    ⟨_, List.getLast?_eq_some_getLast (LirsView.stack_ne_nil hne)⟩
  have hlir := hends bottom hlast
  obtain ⟨id, hid⟩ := hpruned.wired.exists_index (List.mem_of_getLast? hlast)
  obtain ⟨hdemoted, hview, hpop⟩ := hpruned.demote hlast hid hlir
  obtain ⟨hsettled, hsheds', hqueue', hghosts', hends'⟩ := hdemoted.prune
  have hone : lirs.prune.lirCount - lirs.prune.lirQuota = 1 := by
    rw [hsheds.lirCount_eq, hsheds.lirQuota_eq]
    omega
  have heq : lirs.rebalance = (lirs.prune.demote id).prune := by
    rw [Lirs.rebalance, hone, demoteExcess_one hpop]
  have hquotas := lirs.prune.sameQuotas_demote id
  have hhotKeys : (lirs.prune.demote id).prune.hotKeys = lirs.hotKeys.dropLast := by
    rw [hsheds'.hotKeys_eq hdemoted hsettled, hdemoted.hotKeys_eq, hview,
      (hpruned.placed.demote hlast hlir).2, ← hpruned.hotKeys_eq, hhotPruned]
  have hlirCount : (lirs.prune.demote id).prune.lirCount = lirs.lirQuota := by
    rw [hsheds'.lirCount_eq, Lirs.demote, hsheds.lirCount_eq, hexcess, Nat.add_sub_cancel]
  have hlength : (lirs.prune.demote id).prune.length .queue = lirs.length .queue + 1 := by
    have hlonger : (lirs.prune.demote id).keys .queue = bottom :: lirs.prune.keys .queue :=
      (keys_of_view hview .queue).trans (LirsView.keys_demote_queue ..)
    rw [hdemoted.length_congr hsettled hqueue', hdemoted.wired.length_eq, hlonger,
      List.length_cons, ← hpruned.wired.length_eq, h.length_congr hpruned hqueue]
  have hghostsDemoted : (lirs.prune.demote id).length .ghosts = lirs.prune.length .ghosts :=
    hpruned.length_congr hdemoted
      ((keys_of_view hview .ghosts).trans (LirsView.keys_demote_ghosts ..))
  have hresident (key : κ) (hkey : lirs.status? key = some .lir) :
      (lirs.prune.demote id).prune.status? key = some .lir ∨
        (lirs.prune.demote id).prune.status? key = some .resident := by
    have hkept := hsheds.status_of_lir h hkey
    by_cases hbottom : key = bottom
    · right
      have hin : key ∈ (lirs.prune.demote id).keys .queue := by
        rw [keys_of_view hview, hbottom]
        exact List.mem_cons_self
      rw [← hqueue'] at hin
      exact hsettled.mem_queue.1 hin
    · left
      have hlir' : (lirs.prune.demote id).status? key = some .lir := by
        rw [status?_of_view hview]
        exact (LirsView.status?_setStatus_of_ne _ _ hbottom).trans hkept
      exact hsheds'.status_of_lir hdemoted hlir'
  rw [heq]
  exact ⟨hsettled, (hsheds.toSameQuotas.trans hquotas).trans hsheds'.toSameQuotas, hhotKeys,
    hlirCount, hlength, (hghosts'.trans hghostsDemoted.le).trans hghosts, hends', hresident⟩

/-- The state with a node of the stack made LIR. -/
def raise (lirs : Lirs κ) (id handle : SlotId) : Lirs κ :=
  { (lirs.lift .stack (some handle)).setStatus id .lir with lirCount := lirs.lirCount + 1 }

/-- The key becomes the first of the hot keys. -/
theorem Wired.raise (h : lirs.Wired) (hid : lirs.index[key]? = some id) {handle : SlotId}
    (hhandle : lirs.handle? .stack id = some handle) :
    (lirs.raise id handle).Wired ∧ (lirs.raise id handle).view = lirs.view.raise key := by
  have hlift := h.lift hid ((h.mem_keys_iff hid).2 ⟨handle, hhandle⟩)
  rw [hhandle] at hlift
  obtain ⟨hlifted, hliftedView⟩ := hlift
  obtain ⟨hmarked, hmarkedView⟩ := hlifted.setStatus hid .lir
  refine ⟨hmarked.withCount _, ?_⟩
  rw [LirsView.raise, ← hliftedView, ← hmarkedView]
  rfl

/-- The hot keys after `key` has come to be LIR while their quota `quota` was used up: the key
takes the place of the last of them. -/
def exchange (quota : Nat) (key : κ) (hotKeys : List κ) : List κ :=
  if quota = 0 then [] else key :: hotKeys.dropLast

omit [BEq κ] [Hashable κ] [LawfulBEq κ] in
theorem dropLast_cons_eq_exchange {quota : Nat} {hotKeys : List κ}
    (hlength : hotKeys.length = quota) (key : κ) :
    (key :: hotKeys).dropLast = exchange quota key hotKeys := by
  unfold exchange
  split_ifs with hzero
  · rw [hzero, List.length_eq_zero_iff] at hlength
    rw [hlength, List.dropLast_singleton]
  · apply List.dropLast_cons_of_ne_nil
    apply List.ne_nil_of_length_pos
    omega

omit [BEq κ] [Hashable κ] [LawfulBEq κ] in
theorem length_exchange {quota : Nat} {hotKeys : List κ} (hlength : hotKeys.length = quota)
    (key : κ) : (exchange quota key hotKeys).length = quota := by
  calc
    _ = (key :: hotKeys).dropLast.length := by rw [dropLast_cons_eq_exchange hlength]
    _ = quota := by rw [List.length_dropLast, List.length_cons, Nat.add_sub_cancel, hlength]

/-- A HIR key of the stack that has left the other lists is promoted. -/
theorem Valid.promote (h : lirs.Valid) (hpos : 0 < lirs.capacity)
    (hfull : lirs.lirCount = lirs.lirQuota) (hquotas : lirs.SameQuotas lirs')
    (hwired : lirs'.Wired) (hid : lirs'.index[key]? = some id) {handle : SlotId}
    (hhandle : lirs'.handle? .stack id = some handle)
    (hplaced : (lirs'.view.setStatus key (some .lir)).Placed none)
    (hnot : lirs'.status? key ≠ some .lir) (hhot : lirs'.view.hot = lirs.view.hot)
    (hcount : lirs'.lirCount = lirs.lirCount)
    (hqueue : lirs'.length .queue < lirs.residentQuota)
    (hsize : lirs.lirCount + lirs'.length .queue < lirs.capacity)
    (hghosts : lirs'.length .ghosts ≤ lirs.ghostQuota) :
    Serves lirs (lirs'.promote id handle) key (exchange lirs.lirQuota key lirs.hotKeys) := by
  obtain ⟨hraised, hview⟩ := hwired.raise hid hhandle
  obtain ⟨hraisedPlaced, hraisedHot⟩ := LirsView.Placed.raise hplaced hnot
  rw [← hview] at hraisedPlaced hraisedHot
  have hraisedArranged : (lirs'.raise id handle).Arranged none := ⟨hraised, hraisedPlaced⟩
  rw [← hraisedArranged.hotKeys_eq, hhot, ← h.arranged.hotKeys_eq] at hraisedHot
  have hself : (lirs'.raise id handle).status? key = some .lir := by
    rw [status?_of_view hview]
    exact LirsView.status?_setStatus_self ..
  have hlength : lirs.hotKeys.length = lirs.lirQuota := h.lirCount_eq.symm.trans hfull
  have hraisedCount : (lirs'.raise id handle).lirCount = lirs.lirCount + 1 :=
    congrArg (· + 1) hcount
  have hraisedQuotas : lirs'.SameQuotas (lirs'.raise id handle) := ⟨rfl, rfl, rfl, rfl⟩
  have hcounted : (lirs'.raise id handle).lirCount = (lirs'.raise id handle).hotKeys.length := by
    rw [hraisedCount, hraisedHot, List.length_cons, h.lirCount_eq]
  have hexcess : (lirs'.raise id handle).lirCount = (lirs'.raise id handle).lirQuota + 1 := by
    rw [hraisedCount, hfull, hraisedQuotas.lirQuota_eq, hquotas.lirQuota_eq]
  obtain ⟨harranged, hquotas', hhot', hcount', hqueue', hghosts', hends, hkept⟩ :=
    hraisedArranged.rebalance hcounted hexcess
  have hsame : lirs.SameQuotas (lirs'.promote id handle) :=
    (hquotas.trans hraisedQuotas).trans hquotas'
  have hhotKeys : (lirs'.promote id handle).hotKeys =
      exchange lirs.lirQuota key lirs.hotKeys := by
    calc
      _ = (lirs'.raise id handle).hotKeys.dropLast := hhot'
      _ = (key :: lirs.hotKeys).dropLast := by rw [hraisedHot]
      _ = _ := dropLast_cons_eq_exchange hlength key
  have hcountQuota : (lirs'.promote id handle).lirCount = lirs.lirQuota :=
    hcount'.trans hquotas.lirQuota_eq
  have hcounted' : (lirs'.promote id handle).lirCount =
      (lirs'.promote id handle).hotKeys.length := by
    rw [hcountQuota, hhotKeys, length_exchange hlength]
  have hraisedQueue : (lirs'.raise id handle).length .queue = lirs'.length .queue := by
    rw [hraised.length_eq, keys_of_view hview, hwired.length_eq]
    rfl
  have hraisedGhosts : (lirs'.raise id handle).length .ghosts = lirs'.length .ghosts := by
    rw [hraised.length_eq, keys_of_view hview, hwired.length_eq]
    rfl
  have hlonger : (lirs'.promote id handle).length .queue = lirs'.length .queue + 1 :=
    hqueue'.trans (congrArg (· + 1) hraisedQueue)
  have hghosts'' : (lirs'.promote id handle).length .ghosts ≤ lirs.ghostQuota :=
    hghosts'.trans (hraisedGhosts.trans_le hghosts)
  have hvalid := h.of_sameQuotas hpos hsame harranged hcounted' (Nat.le_of_eq hcountQuota)
    (by omega) (by omega) hghosts'' (fun _ _ ↦ hcountQuota) fun _ ↦ hends
  exact ⟨hvalid, hsame, hhotKeys, hkept key hself⟩

end Lirs

end KeyHeat

import KeyHeat.Proofs.Policy.Lirs.Placement

/-!
# Making room leaves the hot keys alone

Pruning the stack, releasing keys of the queue and bounding the ghost list take HIR keys away, one
after the other. None of it touches a LIR key: the hot keys stay what they are, in the same order,
and a key that was in neither the queue nor the ghost list keeps its status.
-/

namespace KeyHeat

/-! ## One key less -/

namespace LirsView

variable {κ : Type}

/-- The second view is the first without some of its HIR keys. -/
structure Sheds (view view' : LirsView κ) : Prop where
  stack_sublist : (view'.keys .stack).Sublist (view.keys .stack)
  hot_eq : view'.hot = view.hot
  frame : ∀ key : κ, key ∉ view.keys .queue → key ∉ view.keys .ghosts →
    key ∉ view'.keys .queue ∧ key ∉ view'.keys .ghosts ∧ view'.status? key = view.status? key

variable {view view' view'' : LirsView κ} {moving : Option κ} {key : κ}

theorem Sheds.refl (view : LirsView κ) : view.Sheds view :=
  ⟨List.Sublist.refl _, rfl, fun _ hqueue hghosts ↦ ⟨hqueue, hghosts, rfl⟩⟩

theorem Sheds.trans (h : view.Sheds view') (h' : view'.Sheds view'') : view.Sheds view'' where
  stack_sublist := h'.stack_sublist.trans h.stack_sublist
  hot_eq := h'.hot_eq.trans h.hot_eq
  frame key hqueue hghosts := by
    obtain ⟨hqueue', hghosts', hstatus⟩ := h.frame key hqueue hghosts
    obtain ⟨hqueue'', hghosts'', hstatus'⟩ := h'.frame key hqueue' hghosts'
    exact ⟨hqueue'', hghosts'', hstatus'.trans hstatus⟩

/-- An untracked key stays untracked. -/
theorem Sheds.status_of_none (h : view.Sheds view') (hplaced : view.Placed moving)
    (hnone : view.status? key = none) : view'.status? key = none := by
  obtain ⟨-, hqueue, hghosts, -⟩ := hplaced.not_mem_of_none hnone
  rw [(h.frame key hqueue hghosts).2.2, hnone]

theorem Sheds.status_of_lir (h : view.Sheds view') (hplaced : view.Placed moving)
    (hlir : view.status? key = some .lir) : view'.status? key = some .lir := by
  obtain ⟨-, hqueue, hghosts, -⟩ := hplaced.not_mem_of_lir hlir
  rw [(h.frame key hqueue hghosts).2.2, hlir]

/-- What is in the queue or the ghost list afterwards was in one of them before. -/
theorem Sheds.mem_of_mem (h : view.Sheds view')
    (hmem : key ∈ view'.keys .queue ∨ key ∈ view'.keys .ghosts) :
    key ∈ view.keys .queue ∨ key ∈ view.keys .ghosts := by
  by_contra hnot
  rw [not_or] at hnot
  obtain ⟨hqueue, hghosts, -⟩ := h.frame key hnot.1 hnot.2
  exact hmem.elim hqueue hghosts

/-- A change to one key of the queue or the ghost list sheds it if it takes nothing else away. -/
theorem Sheds.of_sameOff (hsame : SameOff key view view')
    (hmem : key ∈ view.keys .queue ∨ key ∈ view.keys .ghosts)
    (hsub : (view'.keys .stack).Sublist (view.keys .stack)) (hhot : view'.hot = view.hot) :
    view.Sheds view' := by
  refine ⟨hsub, hhot, ?_⟩
  intro other hqueue hghosts
  have hne : other ≠ key := by
    rintro rfl
    exact hmem.elim hqueue hghosts
  obtain ⟨hstatus, hin⟩ := hsame other hne
  exact ⟨mt (hin .queue).1 hqueue, mt (hin .ghosts).1 hghosts, hstatus⟩

variable [BEq κ] [LawfulBEq κ]

theorem Placed.erase_hot (h : view.Placed moving)
    (hmem : key ∈ view.keys .queue ∨ key ∈ view.keys .ghosts) :
    view.hot.erase key = view.hot :=
  List.erase_of_not_mem fun hhot ↦ (h.not_lir hmem).1 (LirsView.mem_hot.1 hhot).2

theorem Placed.discard (h : view.Placed moving)
    (hmem : key ∈ view.keys .queue ∨ key ∈ view.keys .ghosts) :
    (view.discard key).Placed moving ∧ view.Sheds (view.discard key) := by
  have hsame := sameOff_discard view key
  have hgone (lane : LirsLane) : key ∉ (view.discard key).keys lane :=
    (h.nodup lane).not_mem_erase
  constructor
  · apply h.update hsame
    · exact fun lane ↦ (h.nodup lane).erase key
    · exact fun _ _ ↦ Iff.rfl
    · rw [status?_discard_self]
      exact ⟨hgone .stack, hgone .queue, hgone .ghosts, (h.not_lir hmem).2⟩
  · apply Sheds.of_sameOff hsame hmem List.erase_sublist
    rw [hot_discard (h.nodup .stack), h.erase_hot hmem]

/-- A key of the queue is taken off the stack. -/
theorem Placed.unstack (h : view.Placed moving) (hmem : key ∈ view.keys .queue) :
    (view.delist .stack key).Placed moving ∧ view.Sheds (view.delist .stack key) := by
  have hsame := sameOff_delist view .stack key
  have hstatus := h.mem_queue.1 hmem
  constructor
  · apply h.update hsame
    · exact nodup_delist h.nodup .stack key
    · exact fun _ _ ↦ Iff.rfl
    · change Fits (view.status? key) _ _ _ _
      rw [hstatus]
      exact ⟨hmem, h.moving_ne_of_resident hstatus⟩
  · apply Sheds.of_sameOff hsame (.inl hmem) List.erase_sublist
    rw [hot_delist_stack, h.erase_hot (.inl hmem)]

/-- A key of the queue loses its residency. -/
def release (view : LirsView κ) (key : κ) : LirsView κ :=
  (view.delist .queue key).setStatus key (some .nonResident)

/-- A key of the queue is remembered instead. -/
def retire (view : LirsView κ) (key : κ) : LirsView κ := (view.release key).enlist .ghosts key

theorem sameOff_release (view : LirsView κ) (key : κ) : SameOff key view (view.release key) :=
  (sameOff_delist view .queue key).trans (sameOff_setStatus _ key _)

theorem Placed.retire (h : view.Placed moving) (hmem : key ∈ view.keys .queue)
    (hin : key ∈ view.keys .stack) :
    (view.retire key).Placed moving ∧ view.Sheds (view.retire key) := by
  obtain ⟨hlir, hmoving⟩ := h.not_lir (.inl hmem)
  have hnot := (h.moving_ne_of_resident (h.mem_queue.1 hmem)).1
  have hself : (view.retire key).status? key = some .nonResident := status?_setStatus_self ..
  have hgone : key ∉ (view.retire key).keys .queue := (h.nodup .queue).not_mem_erase
  have hsame : SameOff key view (view.retire key) :=
    (sameOff_release view key).trans (sameOff_enlist _ .ghosts key)
  constructor
  · apply h.update hsame
    · exact nodup_enlist (nodup_delist h.nodup .queue key) hnot
    · exact fun _ _ ↦ Iff.rfl
    · rw [hself]
      exact ⟨hin, hgone, fun _ ↦ hmoving, fun _ ↦ List.mem_cons_self⟩
  · apply Sheds.of_sameOff hsame (.inl hmem) (List.Sublist.refl _)
    exact hot_setStatus (fun hhot ↦ hlir (LirsView.mem_hot.1 hhot).2) (.inr (by decide))

/-- A key that has left one of the lists is forgotten like any other. -/
theorem discard_of_erased (hsame : SameOff key view view')
    (hkeys : ∀ lane, view'.keys lane = (view.keys lane).erase key ∨
      view'.keys lane = view.keys lane)
    (hnodup : ∀ lane, (view.keys lane).Nodup) : view'.discard key = view.discard key := by
  apply LirsView.ext
  · funext other
    by_cases heq : other = key
    · rw [heq, status?_discard_self, status?_discard_self]
    · rw [status?_discard_of_ne _ heq, status?_discard_of_ne _ heq, (hsame other heq).1]
  · funext lane
    change (view'.keys lane).erase key = (view.keys lane).erase key
    rcases hkeys lane with herased | hkept
    · rw [herased, List.erase_of_not_mem (hnodup lane).not_mem_erase]
    · rw [hkept]

omit [LawfulBEq κ] in
theorem keys_delist_cases (view : LirsView κ) (lane other : LirsLane) (key : κ) :
    (view.delist lane key).keys other = (view.keys other).erase key ∨
      (view.delist lane key).keys other = view.keys other := by
  rw [keys_delist]
  split_ifs with heq
  · exact .inl (by rw [heq])
  · exact .inr rfl

theorem discard_delist (hnodup : ∀ lane, (view.keys lane).Nodup) (lane : LirsLane) (key : κ) :
    (view.delist lane key).discard key = view.discard key :=
  discard_of_erased (sameOff_delist view lane key)
    (fun other ↦ keys_delist_cases view lane other key) hnodup

theorem discard_release (hnodup : ∀ lane, (view.keys lane).Nodup) (key : κ) :
    (view.release key).discard key = view.discard key :=
  discard_of_erased (sameOff_release view key)
    (fun other ↦ keys_delist_cases view .queue other key) hnodup

end LirsView

namespace Lirs

variable {κ : Type} [BEq κ] [Hashable κ]

/-- Nodes and lists are wired up, and all keys are in place but for the one that is moving. -/
structure Arranged (lirs : Lirs κ) (moving : Option κ) : Prop where
  wired : lirs.Wired
  placed : lirs.view.Placed moving

/-- The second state is the first without some of its HIR keys. -/
structure Sheds (lirs lirs' : Lirs κ) : Prop extends SameCounts lirs lirs' where
  shown : lirs.view.Sheds lirs'.view

variable {lirs lirs' lirs'' : Lirs κ} {moving : Option κ} {key : κ}

theorem Sheds.refl (lirs : Lirs κ) : lirs.Sheds lirs :=
  ⟨SameCounts.refl lirs, LirsView.Sheds.refl _⟩

theorem Sheds.trans (h : lirs.Sheds lirs') (h' : lirs'.Sheds lirs'') : lirs.Sheds lirs'' :=
  ⟨h.toSameCounts.trans h'.toSameCounts, h.shown.trans h'.shown⟩

theorem Arranged.hotKeys_eq (h : lirs.Arranged moving) : lirs.hotKeys = lirs.view.hot :=
  h.wired.hotKeys_eq

theorem Arranged.mem_queue (h : lirs.Arranged moving) :
    key ∈ lirs.keys .queue ↔ lirs.status? key = some .resident := h.placed.mem_queue

theorem Sheds.hotKeys_eq (hsheds : lirs.Sheds lirs') (h : lirs.Arranged moving)
    (h' : lirs'.Arranged moving) : lirs'.hotKeys = lirs.hotKeys := by
  rw [h'.hotKeys_eq, hsheds.shown.hot_eq, h.hotKeys_eq]

theorem Arranged.length_congr (h : lirs.Arranged moving) (h' : lirs'.Arranged moving)
    {lane : LirsLane} (hkeys : lirs'.keys lane = lirs.keys lane) :
    lirs'.length lane = lirs.length lane := by
  rw [h'.wired.length_eq, hkeys, h.wired.length_eq]

theorem Arranged.of_view {view : LirsView κ} (hwired : lirs'.Wired) (hview : lirs'.view = view)
    (hcounts : lirs.SameCounts lirs')
    (hstep : view.Placed moving ∧ lirs.view.Sheds view) :
    lirs'.Arranged moving ∧ lirs.Sheds lirs' := by
  subst hview
  exact ⟨⟨hwired, hstep.1⟩, ⟨hcounts, hstep.2⟩⟩

theorem Sheds.status_of_lir (hsheds : lirs.Sheds lirs') (h : lirs.Arranged moving)
    (hlir : lirs.status? key = some .lir) : lirs'.status? key = some .lir :=
  hsheds.shown.status_of_lir h.placed hlir

theorem Sheds.status_of_none (hsheds : lirs.Sheds lirs') (h : lirs.Arranged moving)
    (hnone : lirs.status? key = none) : lirs'.status? key = none :=
  hsheds.shown.status_of_none h.placed hnone

variable [LawfulBEq κ]

/-! ## Until the ghost list fits -/

/-- The oldest remembered key is forgotten. -/
theorem Arranged.evict (h : lirs.Arranged moving) {oldest : κ}
    (hlast : (lirs.keys .ghosts).getLast? = some oldest) :
    lirs.evict = (true, lirs.evict.2) ∧ lirs.evict.2.Arranged moving ∧
      lirs.Sheds lirs.evict.2 ∧ lirs.evict.2.keys .queue = lirs.keys .queue ∧
      lirs.evict.2.length .ghosts + 1 = lirs.length .ghosts := by
  have hmem := List.mem_of_getLast? hlast
  have hqueue : oldest ∉ lirs.keys .queue := by
    intro hin
    exact (h.placed.moving_ne_of_resident (h.placed.mem_queue.1 hin)).1 hmem
  obtain ⟨heq, hwired, hview, hcounts⟩ := h.wired.evict hlast hqueue
  obtain ⟨harranged, hsheds⟩ := Arranged.of_view hwired hview hcounts (h.placed.discard (.inr hmem))
  have hsame : (lirs.keys .queue).erase oldest = lirs.keys .queue := List.erase_of_not_mem hqueue
  refine ⟨heq, harranged, hsheds, (keys_of_view hview .queue).trans hsame, ?_⟩
  rw [harranged.wired.length_eq, h.wired.length_eq, ← List.length_erase_add_one hmem,
    keys_of_view hview]
  rfl

/-- Bounding the ghost list leaves the queue alone. -/
theorem Arranged.shrink (h : lirs.Arranged moving) {fuel : Nat}
    (hfuel : lirs.length .ghosts ≤ fuel) :
    (boundGhosts.shrink lirs fuel).Arranged moving ∧ lirs.Sheds (boundGhosts.shrink lirs fuel) ∧
      (boundGhosts.shrink lirs fuel).keys .queue = lirs.keys .queue ∧
      (boundGhosts.shrink lirs fuel).length .ghosts ≤ lirs.ghostQuota := by
  induction fuel generalizing lirs with
  | zero => exact ⟨h, Sheds.refl lirs, rfl, hfuel.trans (Nat.zero_le _)⟩
  | succ fuel ih =>
    rw [boundGhosts.shrink]
    split_ifs with hover
    · have hne : lirs.keys .ghosts ≠ [] := by
        apply List.ne_nil_of_length_pos
        rw [← h.wired.length_eq]
        omega
      obtain ⟨heq, harranged, hsheds, hqueue, hlength⟩ :=
        h.evict (List.getLast?_eq_some_getLast hne)
      obtain ⟨harranged', hsheds', hqueue', hfits⟩ := ih harranged (by omega)
      rw [hsheds.ghostQuota_eq] at hfits
      rw [heq]
      exact ⟨harranged', hsheds.trans hsheds', hqueue'.trans hqueue, hfits⟩
    · exact ⟨h, Sheds.refl lirs, rfl, Nat.le_of_not_lt hover⟩

theorem Arranged.boundGhosts (h : lirs.Arranged moving) :
    lirs.boundGhosts.Arranged moving ∧ lirs.Sheds lirs.boundGhosts ∧
      lirs.boundGhosts.keys .queue = lirs.keys .queue ∧
      lirs.boundGhosts.length .ghosts ≤ lirs.ghostQuota :=
  h.shrink (Nat.le_refl _)

/-! ## Until there is room -/

omit [LawfulBEq κ] in
theorem Arranged.release_nil (h : lirs.Arranged moving) (hnil : lirs.keys .queue = []) :
    lirs.release = (false, lirs) := by
  rw [Lirs.release, h.wired.popBack_nil hnil]

section Release

variable {marked : Lirs κ} {id : SlotId}

/-- A key of the stack that has lost its residency joins the ghost list. -/
theorem Arranged.remember (h : lirs.Arranged moving) (hmem : key ∈ lirs.keys .queue)
    (hin : key ∈ lirs.keys .stack) (hmarked : marked.Wired) (hid : marked.index[key]? = some id)
    (hview : marked.view = lirs.view.release key) (hcounts : lirs.SameCounts marked) :
    (marked.enlist .ghosts id).boundGhosts.Arranged moving ∧
      lirs.Sheds (marked.enlist .ghosts id).boundGhosts ∧
      (marked.enlist .ghosts id).boundGhosts.keys .queue = (lirs.keys .queue).erase key ∧
      (marked.enlist .ghosts id).boundGhosts.length .ghosts ≤ lirs.ghostQuota := by
  have hnot : key ∉ marked.keys .ghosts := by
    rw [keys_of_view hview]
    exact (h.placed.moving_ne_of_resident (h.placed.mem_queue.1 hmem)).1
  obtain ⟨henlisted, henlistedView⟩ := hmarked.enlist hid hnot
  rw [hview] at henlistedView
  have hcounts' : lirs.SameCounts (marked.enlist .ghosts id) :=
    hcounts.trans (.of_index ⟨rfl, rfl, rfl, rfl⟩ rfl rfl)
  obtain ⟨hretired, hsheds⟩ := Arranged.of_view henlisted henlistedView hcounts'
    (h.placed.retire hmem hin)
  obtain ⟨harranged, hsheds', hqueue, hle⟩ := hretired.boundGhosts
  rw [hcounts'.ghostQuota_eq] at hle
  exact ⟨harranged, hsheds.trans hsheds',
    hqueue.trans (keys_of_view henlistedView .queue), hle⟩

/-- A key that has lost its residency outside the stack is forgotten. -/
theorem Arranged.forget (h : lirs.Arranged moving) (hmem : key ∈ lirs.keys .queue)
    (hout : key ∉ lirs.keys .stack) (hmarked : marked.Wired) (hid : marked.index[key]? = some id)
    (hview : marked.view = lirs.view.release key) (hcounts : lirs.SameCounts marked) :
    (marked.destroy id).Arranged moving ∧ lirs.Sheds (marked.destroy id) ∧
      (marked.destroy id).keys .queue = (lirs.keys .queue).erase key ∧
      (marked.destroy id).length .ghosts = lirs.length .ghosts := by
  have hstack : marked.keys .stack = lirs.keys .stack :=
    keys_of_view hview .stack
  have hqueue : marked.keys .queue = (lirs.keys .queue).erase key :=
    keys_of_view hview .queue
  have hnot := (h.placed.moving_ne_of_resident (h.placed.mem_queue.1 hmem)).1
  obtain ⟨hdropped, hdroppedView⟩ := hmarked.destroy hid (hstack ▸ hout)
    (hqueue ▸ (h.placed.nodup .queue).not_mem_erase)
  rw [hview, LirsView.discard_release h.placed.nodup] at hdroppedView
  obtain ⟨harranged, hsheds⟩ := Arranged.of_view hdropped hdroppedView
    (hcounts.trans (marked.sameCounts_destroy id)) (h.placed.discard (.inl hmem))
  have hkept : (marked.destroy id).keys .ghosts = lirs.keys .ghosts :=
    (keys_of_view hdroppedView .ghosts).trans (List.erase_of_not_mem hnot)
  exact ⟨harranged, hsheds, keys_of_view hdroppedView .queue,
    h.length_congr harranged hkept⟩

end Release

/-- The last key of the queue loses its residency, and no other does. -/
theorem Arranged.release (h : lirs.Arranged moving) {oldest : κ}
    (hlast : (lirs.keys .queue).getLast? = some oldest)
    (hghosts : lirs.length .ghosts ≤ lirs.ghostQuota) :
    lirs.release = (true, lirs.release.2) ∧ lirs.release.2.Arranged moving ∧
      lirs.Sheds lirs.release.2 ∧ lirs.release.2.keys .queue = (lirs.keys .queue).erase oldest ∧
      lirs.release.2.length .ghosts ≤ lirs.ghostQuota := by
  have hmem := List.mem_of_getLast? hlast
  obtain ⟨id, hid, hpop⟩ := h.wired.popBack hlast
  obtain ⟨hpopped, hpoppedView⟩ := h.wired.delist hid hmem
  obtain ⟨hmarked, hmarkedView⟩ := hpopped.setStatus hid .nonResident
  rw [hpoppedView] at hmarkedView
  obtain ⟨node, hnode, -⟩ := hmarked.exists_node hid
  have hstacked := hmarked.isSome_handle_iff hid hnode .stack
  rw [keys_of_view hmarkedView .stack] at hstacked
  have hrelease : lirs.release = (true, if node.handles.stack.isSome
      then ((lirs.delist .queue id (lirs.handle? .queue id)).setStatus id .nonResident |>.enlist
        .ghosts id).boundGhosts
      else ((lirs.delist .queue id (lirs.handle? .queue id)).setStatus id .nonResident).destroy
        id) := by
    simp only [Lirs.release, hpop, hnode]
  rw [hrelease]
  split_ifs with hin
  · exact ⟨rfl, h.remember hmem (hstacked.1 hin) hmarked hid hmarkedView
      (.of_index ⟨rfl, rfl, rfl, rfl⟩ rfl rfl)⟩
  · obtain ⟨harranged, hsheds, hqueue, hlength⟩ := h.forget hmem (mt hstacked.2 hin) hmarked hid
      hmarkedView (.of_index ⟨rfl, rfl, rfl, rfl⟩ rfl rfl)
    exact ⟨rfl, harranged, hsheds, hqueue, hlength.trans_le hghosts⟩

/-- There is room for one more resident key. -/
def HasRoom (lirs : Lirs κ) : Prop :=
  lirs.length .queue < lirs.residentQuota ∧ lirs.size < lirs.capacity

omit [LawfulBEq κ] in
theorem hasRoom_of_not_mustRelease (h : ¬lirs.mustRelease = true) : lirs.HasRoom := by
  rw [mustRelease, Bool.or_eq_true, decide_eq_true_eq, decide_eq_true_eq] at h
  unfold HasRoom
  omega

omit [LawfulBEq κ] in
/-- An empty queue leaves room in any case, since the LIR keys do not fill the capacity. -/
theorem hasRoom_of_length_eq_zero (hresident : 0 < lirs.residentQuota)
    (hlir : lirs.lirCount < lirs.capacity) (hempty : lirs.length .queue = 0) : lirs.HasRoom := by
  rw [HasRoom, size, hempty]
  exact ⟨hresident, hlir⟩

theorem Arranged.settle_makeRoom (h : lirs.Arranged moving)
    (hghosts : lirs.length .ghosts ≤ lirs.ghostQuota) (hresident : 0 < lirs.residentQuota)
    (hlir : lirs.lirCount < lirs.capacity) {fuel : Nat} (hfuel : lirs.length .queue ≤ fuel) :
    (makeRoom.settle lirs fuel).Arranged moving ∧ lirs.Sheds (makeRoom.settle lirs fuel) ∧
      (makeRoom.settle lirs fuel).length .ghosts ≤ lirs.ghostQuota ∧
      (makeRoom.settle lirs fuel).HasRoom := by
  induction fuel generalizing lirs with
  | zero =>
    have hroom := hasRoom_of_length_eq_zero hresident hlir (Nat.le_zero.1 hfuel)
    exact ⟨h, Sheds.refl lirs, hghosts, hroom⟩
  | succ fuel ih =>
    rw [makeRoom.settle]
    split_ifs with hmust
    · cases hlast : (lirs.keys .queue).getLast? with
      | none =>
        have hnil := List.getLast?_eq_none_iff.1 hlast
        have hempty : lirs.length .queue = 0 := by
          rw [h.wired.length_eq, hnil, List.length_nil]
        rw [h.release_nil hnil]
        exact ⟨h, Sheds.refl lirs, hghosts, hasRoom_of_length_eq_zero hresident hlir hempty⟩
      | some oldest =>
        obtain ⟨heq, harranged, hsheds, hqueue, hle⟩ := h.release hlast hghosts
        have hlir' : lirs.release.2.lirCount < lirs.release.2.capacity := by
          rwa [hsheds.lirCount_eq, hsheds.capacity_eq]
        have hresident' : 0 < lirs.release.2.residentQuota := by
          rwa [hsheds.residentQuota_eq]
        rw [← hsheds.ghostQuota_eq] at hle
        have hlength : lirs.release.2.length .queue + 1 = lirs.length .queue := by
          rw [harranged.wired.length_eq, hqueue,
            List.length_erase_add_one (List.mem_of_getLast? hlast), h.wired.length_eq]
        obtain ⟨harranged', hsheds', hle', hroom⟩ :=
          ih harranged hle hresident' hlir' (by omega)
        rw [hsheds.ghostQuota_eq] at hle'
        rw [heq]
        exact ⟨harranged', hsheds.trans hsheds', hle', hroom⟩
    · exact ⟨h, Sheds.refl lirs, hghosts, hasRoom_of_not_mustRelease hmust⟩

theorem Arranged.makeRoom (h : lirs.Arranged moving)
    (hghosts : lirs.length .ghosts ≤ lirs.ghostQuota) (hresident : 0 < lirs.residentQuota)
    (hlir : lirs.lirCount < lirs.capacity) :
    lirs.makeRoom.Arranged moving ∧ lirs.Sheds lirs.makeRoom ∧
      lirs.makeRoom.length .ghosts ≤ lirs.ghostQuota ∧ lirs.makeRoom.HasRoom :=
  h.settle_makeRoom hghosts hresident hlir (Nat.le_refl _)

/-! ## Until the stack ends in a LIR key -/

/-- The last key of the stack, if there is any, is LIR. -/
def EndsInLir (lirs : Lirs κ) : Prop :=
  ∀ bottom, (lirs.keys .stack).getLast? = some bottom → lirs.status? bottom = some .lir

/-- The state with the last node taken off the stack, and freed if it was remembered only there. -/
def strip (lirs : Lirs κ) (id : SlotId) (node : LirsNode κ) : Lirs κ :=
  if node.handles.queue.isNone then (lirs.popBack .stack).2.destroy id else (lirs.popBack .stack).2

/-- A HIR key is taken off the stack. -/
theorem Arranged.strip (h : lirs.Arranged none) {bottom : κ} {id : SlotId} {node : LirsNode κ}
    (hlast : (lirs.keys .stack).getLast? = some bottom) (hid : lirs.index[bottom]? = some id)
    (hnode : lirs.nodes.get? id = some node) (hlir : lirs.status? bottom ≠ some .lir) :
    (lirs.strip id node).Arranged none ∧ lirs.Sheds (lirs.strip id node) ∧
      (lirs.strip id node).keys .queue = lirs.keys .queue ∧
      (lirs.strip id node).length .ghosts ≤ lirs.length .ghosts ∧
      (lirs.strip id node).keys .stack = (lirs.keys .stack).erase bottom := by
  have hmem := List.mem_of_getLast? hlast
  have hqueued := h.wired.isSome_handle_iff hid hnode .queue
  obtain ⟨id', hid', hpop⟩ := h.wired.popBack hlast
  obtain rfl : id = id' := Option.some_inj.1 (hid.symm.trans hid')
  obtain ⟨hpopped, hview⟩ := h.wired.delist hid hmem
  have hstrip : lirs.strip id node = if node.handles.queue.isSome
      then lirs.delist .stack id (lirs.handle? .stack id)
      else (lirs.delist .stack id (lirs.handle? .stack id)).destroy id := by
    rw [Lirs.strip, hpop]
    cases node.handles.queue <;> rfl
  rw [hstrip]
  split_ifs with hqueue
  · obtain ⟨harranged, hsheds⟩ := Arranged.of_view hpopped hview
      (lirs.sameCounts_delist .stack id _) (h.placed.unstack (hqueued.1 hqueue))
    exact ⟨harranged, hsheds, keys_of_view hview .queue,
      (h.length_congr harranged (keys_of_view hview .ghosts)).le, keys_of_view hview .stack⟩
  · have hout : bottom ∉ lirs.keys .queue := mt hqueued.2 hqueue
    have hghosts : bottom ∈ lirs.keys .ghosts :=
      h.placed.mem_ghosts_of_mem_stack hmem hlir hout
    have hgone : bottom ∉ (lirs.keys .stack).erase bottom := (h.placed.nodup .stack).not_mem_erase
    obtain ⟨hdropped, hdroppedView⟩ := hpopped.destroy hid (keys_of_view hview .stack ▸ hgone)
      (keys_of_view hview .queue ▸ hout)
    rw [hview, LirsView.discard_delist h.placed.nodup] at hdroppedView
    have hcounts := (lirs.sameCounts_delist .stack id (lirs.handle? .stack id)).trans
      (Lirs.sameCounts_destroy _ id)
    obtain ⟨harranged, hsheds⟩ := Arranged.of_view hdropped hdroppedView hcounts
      (h.placed.discard (.inr hghosts))
    have hqueueKept := (keys_of_view hdroppedView .queue).trans (List.erase_of_not_mem hout)
    have hfewer : ((lirs.keys .ghosts).erase bottom).length ≤ (lirs.keys .ghosts).length :=
      List.erase_sublist.length_le
    refine ⟨harranged, hsheds, hqueueKept, ?_, keys_of_view hdroppedView .stack⟩
    rw [harranged.wired.length_eq, h.wired.length_eq, keys_of_view hdroppedView]
    exact hfewer

theorem Arranged.settle_prune (h : lirs.Arranged none) {fuel : Nat}
    (hfuel : lirs.length .stack ≤ fuel) :
    (prune.settle lirs fuel).Arranged none ∧ lirs.Sheds (prune.settle lirs fuel) ∧
      (prune.settle lirs fuel).keys .queue = lirs.keys .queue ∧
      (prune.settle lirs fuel).length .ghosts ≤ lirs.length .ghosts ∧
      (prune.settle lirs fuel).EndsInLir := by
  induction fuel generalizing lirs with
  | zero =>
    have hends : lirs.EndsInLir := by
      intro bottom hbottom
      rw [h.wired.length_eq, Nat.le_zero, List.length_eq_zero_iff] at hfuel
      rw [hfuel] at hbottom
      cases hbottom
    exact ⟨h, Sheds.refl lirs, rfl, Nat.le_refl _, hends⟩
  | succ fuel ih =>
    cases hlast : (lirs.keys .stack).getLast? with
    | none =>
      have hends : lirs.EndsInLir := by
        intro bottom hbottom
        rw [hlast] at hbottom
        cases hbottom
      rw [prune.settle, h.wired.peek?_back_nil (List.getLast?_eq_none_iff.1 hlast)]
      exact ⟨h, Sheds.refl lirs, rfl, Nat.le_refl _, hends⟩
    | some bottom =>
      have hmem := List.mem_of_getLast? hlast
      obtain ⟨id, hid⟩ := h.wired.exists_index hmem
      obtain ⟨node, hnode, -⟩ := h.wired.exists_node hid
      have hstatus : lirs.status? bottom = some node.status := by
        rw [status?_eq hid, hnode, Option.map_some]
      simp only [prune.settle, h.wired.peek?_back hid hlast, hnode]
      by_cases hlir : node.status = .lir
      · have hends : lirs.EndsInLir := by
          intro other hother
          rw [hlast] at hother
          cases hother
          rw [hstatus, hlir]
        rw [if_pos hlir]
        exact ⟨h, Sheds.refl lirs, rfl, Nat.le_refl _, hends⟩
      · have hnot : lirs.status? bottom ≠ some .lir := by
          rw [hstatus]
          exact fun hsome ↦ hlir (Option.some_inj.1 hsome)
        obtain ⟨harranged, hsheds, hqueue, hghosts, hstack⟩ := h.strip hlast hid hnode hnot
        have hfuel' : (lirs.strip id node).length .stack ≤ fuel := by
          have hlength := List.length_erase_add_one hmem
          rw [h.wired.length_eq] at hfuel
          rw [harranged.wired.length_eq, hstack]
          omega
        obtain ⟨harranged', hsheds', hqueue', hghosts', hends⟩ := ih harranged hfuel'
        rw [if_neg hlir]
        exact ⟨harranged', hsheds.trans hsheds', hqueue'.trans hqueue, hghosts'.trans hghosts,
          hends⟩

/-- Pruning leaves the queue alone and adds nothing to the ghost list. -/
theorem Arranged.prune (h : lirs.Arranged none) :
    lirs.prune.Arranged none ∧ lirs.Sheds lirs.prune ∧ lirs.prune.keys .queue = lirs.keys .queue ∧
      lirs.prune.length .ghosts ≤ lirs.length .ghosts ∧ lirs.prune.EndsInLir :=
  h.settle_prune (Nat.le_refl _)

end Lirs

end KeyHeat

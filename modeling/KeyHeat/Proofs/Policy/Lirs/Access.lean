import KeyHeat.Proofs.Policy.Lirs.Promotion

/-!
# What an access does to the LIRS lists

An access keeps the state valid and makes its key resident. Its effect on the hot keys depends on
the status of the key: a key that comes to be LIR goes to the front, in exchange for the last of
the hot keys once they have used up their quota.
-/

namespace KeyHeat

/-! ## New and returning keys in the lists -/

namespace LirsView

variable {κ : Type} [BEq κ] {view : LirsView κ} {key : κ}

/-- A new key is LIR. -/
def admitLir (view : LirsView κ) (key : κ) : LirsView κ :=
  (view.setStatus key (some .lir)).enlist .stack key

/-- A new key is resident HIR. -/
def admitResident (view : LirsView κ) (key : κ) : LirsView κ :=
  ((view.admitLir key).enlist .queue key).setStatus key (some .resident)

/-- A resident HIR key is put back on the stack and made the newest of its kind. -/
def refresh (view : LirsView κ) (key : κ) : LirsView κ :=
  (view.enlist .stack key).lift .queue key

variable [LawfulBEq κ]

theorem sameOff_admitLir (view : LirsView κ) (key : κ) : SameOff key view (view.admitLir key) :=
  (sameOff_setStatus view key _).trans (sameOff_enlist _ .stack key)

theorem Placed.admitLir (h : view.Placed none) (hnone : view.status? key = none) :
    (view.admitLir key).Placed none ∧ (view.admitLir key).hot = key :: view.hot := by
  obtain ⟨hstack, hqueue, hghosts, hmoving⟩ := h.not_mem_of_none hnone
  have hself : (view.admitLir key).status? key = some .lir := status?_setStatus_self ..
  have hmarked : (view.setStatus key (some .lir)).status? key = some .lir :=
    status?_setStatus_self ..
  constructor
  · apply h.update (sameOff_admitLir view key)
    · exact nodup_enlist h.nodup hstack
    · exact fun _ _ ↦ Iff.rfl
    · rw [hself]
      exact ⟨List.mem_cons_self, hqueue, hghosts, hmoving⟩
  · calc
      _ = key :: (view.setStatus key (some .lir)).hot := hot_enlist_of_lir hmarked
      _ = key :: view.hot := by
        rw [hot_setStatus (fun hmem ↦ hstack (LirsView.mem_hot.1 hmem).1) (.inl hstack)]

theorem sameOff_admitResident (view : LirsView κ) (key : κ) :
    SameOff key view (view.admitResident key) :=
  ((sameOff_admitLir view key).trans (sameOff_enlist _ .queue key)).trans
    (sameOff_setStatus _ key _)

theorem Placed.admitResident (h : view.Placed none) (hnone : view.status? key = none) :
    (view.admitResident key).Placed none ∧ (view.admitResident key).hot = view.hot := by
  obtain ⟨hstack, hqueue, hghosts, hmoving⟩ := h.not_mem_of_none hnone
  have hself : (view.admitResident key).status? key = some .resident :=
    status?_setStatus_self ..
  have hsame := sameOff_admitResident view key
  constructor
  · apply h.update hsame
    · exact nodup_enlist (nodup_enlist h.nodup hstack) hqueue
    · exact fun _ _ ↦ Iff.rfl
    · rw [hself]
      exact ⟨List.mem_cons_self, hghosts, hmoving⟩
  · calc
      _ = (view.keys .stack).filter fun other ↦
          (view.admitResident key).status? other = some .lir :=
        List.filter_cons_of_neg (by simp [hself])
      _ = view.hot := by
        apply List.filter_congr
        intro other hmem
        rw [(hsame other (ne_of_mem_of_not_mem hmem hstack)).1]

/-- A resident HIR key that has left the stack comes back to its top. -/
theorem Placed.refresh (h : view.Placed none) (hstatus : view.status? key = some .resident)
    (hout : key ∉ view.keys .stack) :
    (view.refresh key).Placed none ∧ (view.refresh key).hot = view.hot := by
  have hmem := h.mem_queue.2 hstatus
  have hnot : view.status? key ≠ some .lir := by
    rw [hstatus]
    decide
  constructor
  · apply h.update ((sameOff_enlist view .stack key).trans (sameOff_lift _ .queue key))
    · exact nodup_lift (nodup_enlist h.nodup hout) .queue key
    · exact fun _ _ ↦ Iff.rfl
    · change Fits (view.status? key) _ _ _ _
      rw [hstatus]
      exact ⟨List.mem_cons_self, h.moving_ne_of_resident hstatus⟩
  · exact hot_enlist_of_not_lir hnot

/-- A remembered key that leaves the ghost list is on its way. -/
theorem Placed.takeBack (h : view.Placed none) (hstatus : view.status? key = some .nonResident) :
    (view.delist .ghosts key).Placed (some key) := by
  obtain ⟨hstack, hqueue⟩ := h.mem_stack_of_nonResident hstatus
  have hgone : key ∉ (view.delist .ghosts key).keys .ghosts := (h.nodup .ghosts).not_mem_erase
  apply h.update (sameOff_delist view .ghosts key)
  · exact nodup_delist h.nodup .ghosts key
  · intro other hne
    simp [hne]
  · change Fits (view.status? key) _ _ _ _
    rw [hstatus]
    exact ⟨hstack, hqueue, by simp [hgone]⟩

/-- A HIR key of the stack is in place as a LIR key once it has left the queue. -/
theorem Placed.claim (h : view.Placed none) (hstatus : view.status? key = some .resident)
    (hstack : key ∈ view.keys .stack) :
    ((view.delist .queue key).setStatus key (some .lir)).Placed none := by
  obtain ⟨hghosts, hmoving⟩ := h.moving_ne_of_resident hstatus
  have hgone : key ∉ (view.delist .queue key).keys .queue := (h.nodup .queue).not_mem_erase
  apply h.update ((sameOff_delist view .queue key).trans (sameOff_setStatus _ key _))
  · exact nodup_delist h.nodup .queue key
  · exact fun _ _ ↦ Iff.rfl
  · rw [status?_setStatus_self]
    exact ⟨hstack, hgone, hghosts, hmoving⟩

/-- A key on its way is in place as a LIR key. -/
theorem Placed.arrive (h : view.Placed (some key))
    (hstatus : view.status? key = some .nonResident) :
    (view.setStatus key (some .lir)).Placed none := by
  obtain ⟨hstack, hqueue⟩ := h.mem_stack_of_nonResident hstatus
  have hghosts : key ∉ view.keys .ghosts := fun hmem ↦ (h.status_of_mem_ghosts hmem).2 rfl
  apply h.update (sameOff_setStatus view key _)
  · exact h.nodup
  · intro other hne
    simp [hne]
  · rw [status?_setStatus_self]
    exact ⟨hstack, hqueue, hghosts, by simp⟩

end LirsView

namespace Lirs

variable {κ : Type} [BEq κ] [Hashable κ] {lirs lirs' : Lirs κ} {key : κ} {id : SlotId}

/-! ## A key that is neither resident nor remembered -/

/-- The state with a node for a new key on top of the stack. -/
def introduce (lirs : Lirs κ) (key : κ) : Lirs κ :=
  (lirs.allot key).2.enlist .stack (lirs.allot key).1

/-- The state with a new LIR key. -/
def admitLir (lirs : Lirs κ) (key : κ) : Lirs κ :=
  { lirs.introduce key with lirCount := lirs.lirCount + 1 }

/-- The state with a new resident HIR key. -/
def admitResident (lirs : Lirs κ) (key : κ) : Lirs κ :=
  ((lirs.introduce key).enlist .queue (lirs.allot key).1).setStatus (lirs.allot key).1 .resident

theorem enroll_eq (lirs : Lirs κ) (key : κ) :
    lirs.enroll key = if lirs.makeRoom.lirCount < lirs.makeRoom.lirQuota
      then lirs.makeRoom.admitLir key else lirs.makeRoom.admitResident key := rfl

theorem sameQuotas_admitResident (lirs : Lirs κ) (key : κ) :
    lirs.SameQuotas (lirs.admitResident key) := ⟨rfl, rfl, rfl, rfl⟩

theorem lirCount_admitResident (lirs : Lirs κ) (key : κ) :
    (lirs.admitResident key).lirCount = lirs.lirCount := rfl

theorem sameQuotas_admitLir (lirs : Lirs κ) (key : κ) : lirs.SameQuotas (lirs.admitLir key) :=
  ⟨rfl, rfl, rfl, rfl⟩

variable [LawfulBEq κ]

theorem Wired.introduce (h : lirs.Wired) (hnone : lirs.index[key]? = none)
    (hout : key ∉ lirs.keys .stack) :
    (lirs.introduce key).Wired ∧ (lirs.introduce key).index[key]? = some (lirs.allot key).1 ∧
      (lirs.introduce key).view = lirs.view.admitLir key := by
  obtain ⟨hallotted, hid, hview⟩ := h.allot hnone
  have hout' : key ∉ (lirs.allot key).2.keys .stack := by
    rwa [keys_of_view hview]
  obtain ⟨hadmitted, hadmittedView⟩ := hallotted.enlist hid hout'
  refine ⟨hadmitted, hid, ?_⟩
  rw [Lirs.introduce, hadmittedView, hview]
  rfl

theorem Arranged.admitLir (h : lirs.Arranged none) (hnone : lirs.status? key = none) :
    (lirs.admitLir key).Arranged none ∧ (lirs.admitLir key).view = lirs.view.admitLir key := by
  have hout := (h.placed.not_mem_of_none hnone).1
  obtain ⟨hwired, -, hview⟩ := h.wired.introduce (h.wired.status?_eq_none.1 hnone) hout
  refine ⟨⟨hwired.withCount _, ?_⟩, hview⟩
  change (lirs.introduce key).view.Placed none
  rw [hview]
  exact (h.placed.admitLir hnone).1

theorem Arranged.admitResident (h : lirs.Arranged none) (hnone : lirs.status? key = none) :
    (lirs.admitResident key).Arranged none ∧
      (lirs.admitResident key).view = lirs.view.admitResident key := by
  obtain ⟨hout, hqueue, -⟩ := h.placed.not_mem_of_none hnone
  obtain ⟨hwired, hid, hview⟩ := h.wired.introduce (h.wired.status?_eq_none.1 hnone) hout
  have hqueue' : key ∉ (lirs.introduce key).keys .queue := by
    rwa [keys_of_view hview]
  obtain ⟨hqueued, hqueuedView⟩ := hwired.enlist hid hqueue'
  obtain ⟨hmarked, hmarkedView⟩ := hqueued.setStatus hid .resident
  have hview' : (lirs.admitResident key).view = lirs.view.admitResident key := by
    rw [LirsView.admitResident, ← hview, ← hqueuedView, ← hmarkedView]
    rfl
  exact ⟨⟨hmarked, hview' ▸ (h.placed.admitResident hnone).1⟩, hview'⟩

/-- A new key becomes LIR while there are too few of them. There are no HIR keys then, so every key
of the stack is LIR. -/
theorem Valid.admitLir (h : lirs.Valid) (hpos : 0 < lirs.capacity)
    (hnone : lirs.status? key = none) (hroom : lirs.lirCount < lirs.lirQuota) :
    Serves lirs (lirs.makeRoom.admitLir key) key (key :: lirs.hotKeys) := by
  obtain ⟨harranged, hsheds, hghosts, hqueue, hsize⟩ :=
    h.arranged.makeRoom h.ghosts_le h.residentQuota_pos (h.lirCount_lt hpos)
  rw [hsheds.residentQuota_eq] at hqueue
  rw [size, hsheds.lirCount_eq, hsheds.capacity_eq] at hsize
  have hfresh := hsheds.status_of_none h.arranged hnone
  have hinStack := (harranged.placed.not_mem_of_none hfresh).1
  have hempty (other : κ) : ¬(other ∈ lirs.makeRoom.keys .queue ∨
      other ∈ lirs.makeRoom.keys .ghosts) := by
    intro hmem
    have hfull := h.full other (hsheds.shown.mem_of_mem hmem)
    omega
  obtain ⟨hadmitted, hview⟩ := harranged.admitLir hfresh
  set admitted := lirs.makeRoom.admitLir key with hadmittedEq
  have hself : admitted.status? key = some .lir := by
    rw [status?_of_view hview]
    exact LirsView.status?_setStatus_self ..
  have hhot : admitted.hotKeys = key :: lirs.hotKeys := by
    rw [hadmitted.hotKeys_eq, hview, (harranged.placed.admitLir hfresh).2, ← harranged.hotKeys_eq,
      hsheds.hotKeys_eq h.arranged harranged]
  have hcount : admitted.lirCount = lirs.lirCount + 1 := congrArg (· + 1) hsheds.lirCount_eq
  have hlength : admitted.lirCount = admitted.hotKeys.length := by
    rw [hcount, hhot, List.length_cons, h.lirCount_eq]
  have hqueue' : admitted.length .queue = lirs.makeRoom.length .queue :=
    harranged.length_congr hadmitted (keys_of_view hview .queue)
  have hghosts' : admitted.length .ghosts = lirs.makeRoom.length .ghosts :=
    harranged.length_congr hadmitted (keys_of_view hview .ghosts)
  have hquotas : lirs.SameQuotas admitted :=
    hsheds.toSameQuotas.trans (lirs.makeRoom.sameQuotas_admitLir key)
  have hends : admitted.EndsInLir := by
    apply (harranged.endsInLir hempty).push (keys_of_view hview .stack)
    · intro other hmem
      rw [status?_of_view hview]
      exact (LirsView.sameOff_admitLir _ key other (ne_of_mem_of_not_mem hmem hinStack)).1
    · exact fun _ ↦ hself
  have hnot (other : κ) (hmem : other ∈ admitted.keys .queue ∨ other ∈ admitted.keys .ghosts) :
      admitted.lirCount = lirs.lirQuota := by
    rw [keys_of_view hview, keys_of_view hview] at hmem
    exact absurd hmem (hempty other)
  have hvalid := h.of_sameQuotas hpos hquotas hadmitted hlength (by omega) (by omega) (by omega)
    (hghosts'.trans_le hghosts) hnot fun _ ↦ hends
  exact ⟨hvalid, hquotas, hhot, .inl hself⟩

/-- A new key becomes resident HIR once there are enough LIR keys. -/
theorem Valid.admitResident (h : lirs.Valid) (hpos : 0 < lirs.capacity)
    (hnone : lirs.status? key = none) (hfull : lirs.lirCount = lirs.lirQuota) :
    Serves lirs (lirs.makeRoom.admitResident key) key lirs.hotKeys := by
  obtain ⟨harranged, hsheds, hghosts, hqueue, hsize⟩ :=
    h.arranged.makeRoom h.ghosts_le h.residentQuota_pos (h.lirCount_lt hpos)
  rw [hsheds.residentQuota_eq] at hqueue
  rw [size, hsheds.lirCount_eq, hsheds.capacity_eq] at hsize
  have hfresh := hsheds.status_of_none h.arranged hnone
  have hinStack := (harranged.placed.not_mem_of_none hfresh).1
  obtain ⟨hadmitted, hview⟩ := harranged.admitResident hfresh
  have hcount := (lirs.makeRoom.lirCount_admitResident key).trans hsheds.lirCount_eq
  have hquotas := hsheds.toSameQuotas.trans (lirs.makeRoom.sameQuotas_admitResident key)
  set admitted := lirs.makeRoom.admitResident key with hadmittedEq
  have hself : admitted.status? key = some .resident := by
    rw [status?_of_view hview]
    exact LirsView.status?_setStatus_self ..
  have hhot : admitted.hotKeys = lirs.hotKeys := by
    rw [hadmitted.hotKeys_eq, hview, (harranged.placed.admitResident hfresh).2,
      ← harranged.hotKeys_eq, hsheds.hotKeys_eq h.arranged harranged]
  have hlength : admitted.lirCount = admitted.hotKeys.length := by
    rw [hcount, hhot, h.lirCount_eq]
  have hqueueKeys : admitted.keys .queue = key :: lirs.makeRoom.keys .queue :=
    keys_of_view hview .queue
  have hlonger : admitted.length .queue = lirs.makeRoom.length .queue + 1 := by
    rw [hadmitted.wired.length_eq, hqueueKeys, List.length_cons, harranged.wired.length_eq]
  have hghosts' : admitted.length .ghosts = lirs.makeRoom.length .ghosts :=
    harranged.length_congr hadmitted (keys_of_view hview .ghosts)
  have hends (hlir : 0 < admitted.lirCount) : admitted.EndsInLir := by
    rw [hcount] at hlir
    have hne := h.hot_ne_nil hlir
    apply (hsheds.endsInLir h.arranged hne (h.ends hlir)).push (keys_of_view hview .stack)
    · intro other hmem
      have hother := ne_of_mem_of_not_mem hmem hinStack
      rw [status?_of_view hview]
      exact (LirsView.sameOff_admitResident _ key other hother).1
    · intro hnil
      rw [← hsheds.shown.hot_eq] at hne
      exact absurd hnil (LirsView.stack_ne_nil hne)
  have hvalid := h.of_sameQuotas hpos hquotas hadmitted hlength (by omega) (by omega) (by omega)
    (hghosts'.trans_le hghosts) (fun _ _ ↦ hcount.trans hfull) hends
  exact ⟨hvalid, hquotas, hhot, .inr hself⟩

theorem Valid.enroll (h : lirs.Valid) (hpos : 0 < lirs.capacity)
    (hnone : lirs.status? key = none) :
    Serves lirs (lirs.enroll key) key
      (if lirs.lirCount < lirs.lirQuota then key :: lirs.hotKeys else lirs.hotKeys) := by
  obtain ⟨-, hsheds, -⟩ :=
    h.arranged.makeRoom h.ghosts_le h.residentQuota_pos (h.lirCount_lt hpos)
  rw [enroll_eq, hsheds.lirCount_eq, hsheds.lirQuota_eq]
  split_ifs with hroom
  · exact h.admitLir hpos hnone hroom
  · have hfull : lirs.lirCount = lirs.lirQuota :=
      Nat.le_antisymm h.lirCount_le (Nat.le_of_not_lt hroom)
    exact h.admitResident hpos hnone hfull

/-! ## A LIR key -/

omit [LawfulBEq κ] in
theorem sameCounts_lift (lirs : Lirs κ) (lane : LirsLane) (handle : Option SlotId) :
    lirs.SameCounts (lirs.lift lane handle) := .of_index ⟨rfl, rfl, rfl, rfl⟩ rfl rfl

omit [LawfulBEq κ] in
theorem touchLir_eq (lirs : Lirs κ) (handle : SlotId) :
    lirs.touchLir handle = if (lirs.lanes.get .stack).endId .back = some handle
      then (lirs.lift .stack (some handle)).prune
      else lirs.lift .stack (some handle) := rfl

/-- A LIR key at the top of the stack is the first of the hot keys. -/
theorem Valid.lift (h : lirs.Valid) (hid : lirs.index[key]? = some id)
    (hlir : lirs.status? key = some .lir) {handle : SlotId}
    (hhandle : lirs.handle? .stack id = some handle) :
    (lirs.lift .stack (some handle)).Arranged none ∧
      (lirs.lift .stack (some handle)).view = lirs.view.lift .stack key ∧
      (lirs.lift .stack (some handle)).hotKeys = key :: lirs.hotKeys.erase key := by
  have hmem := (h.arranged.placed.not_mem_of_lir hlir).1
  obtain ⟨hwired, hview⟩ := h.arranged.wired.lift hid hmem
  rw [hhandle] at hwired hview
  have hlifted : (lirs.lift .stack (some handle)).Arranged none :=
    ⟨hwired, hview ▸ h.arranged.placed.lift hmem⟩
  refine ⟨hlifted, hview, ?_⟩
  rw [hlifted.hotKeys_eq, hview, LirsView.hot_lift_of_lir hlir, h.arranged.hotKeys_eq]

/-- A LIR key that is not at the bottom of the stack moves to the top. -/
theorem Valid.serves_lift (h : lirs.Valid) (hid : lirs.index[key]? = some id)
    (hlir : lirs.status? key = some .lir) {handle : SlotId}
    (hhandle : lirs.handle? .stack id = some handle) {bottom : κ}
    (hlast : (lirs.keys .stack).getLast? = some bottom) (hne : key ≠ bottom) :
    Serves lirs (lirs.lift .stack (some handle)) key (key :: lirs.hotKeys.erase key) := by
  have hpos := h.capacity_pos key (by simp [hlir])
  have hinHot : key ∈ lirs.hotKeys := h.mem_hotKeys_iff.2 hlir
  obtain ⟨hlifted, hview, hhot⟩ := h.lift hid hlir hhandle
  have hcounts := lirs.sameCounts_lift .stack (some handle)
  set lifted := lirs.lift .stack (some handle)
  have hcounted : lifted.lirCount = lifted.hotKeys.length := by
    rw [hcounts.lirCount_eq, hhot, List.length_cons, List.length_erase_add_one hinHot,
      h.lirCount_eq]
  have hqueue : lifted.length .queue = lirs.length .queue :=
    h.arranged.length_congr hlifted (keys_of_view hview .queue)
  have hghosts : lifted.length .ghosts = lirs.length .ghosts :=
    h.arranged.length_congr hlifted (keys_of_view hview .ghosts)
  have hsize := h.size_le
  rw [size, ← hqueue, ← hcounts.lirCount_eq] at hsize
  have hfull (other : κ) (hother : other ∈ lifted.keys .queue ∨ other ∈ lifted.keys .ghosts) :
      lifted.lirCount = lirs.lirQuota := by
    rw [keys_of_view hview, keys_of_view hview] at hother
    exact hcounts.lirCount_eq.trans (h.full other hother)
  have hends (hlirPos : 0 < lifted.lirCount) : lifted.EndsInLir := by
    intro other hother
    rw [keys_of_view hview] at hother
    change (key :: (lirs.keys .stack).erase key).getLast? = some other at hother
    rw [getLast?_cons_erase hlast hne] at hother
    cases hother
    rw [hcounts.lirCount_eq] at hlirPos
    exact (status?_of_view hview bottom).trans (h.ends hlirPos bottom hlast)
  have hvalid := h.of_sameQuotas hpos hcounts.toSameQuotas hlifted hcounted
    (hcounts.lirCount_eq.trans_le h.lirCount_le) (hqueue.trans_le h.queue_le) hsize
    (hghosts.trans_le h.ghosts_le) hfull hends
  exact ⟨hvalid, hcounts.toSameQuotas, hhot, .inl ((status?_of_view hview key).trans hlir)⟩

/-- A LIR key that was at the bottom of the stack leaves it to be cut back to a LIR key. -/
theorem Valid.prune_lift (h : lirs.Valid) (hid : lirs.index[key]? = some id)
    (hlir : lirs.status? key = some .lir) {handle : SlotId}
    (hhandle : lirs.handle? .stack id = some handle) :
    Serves lirs (lirs.lift .stack (some handle)).prune key (key :: lirs.hotKeys.erase key) := by
  have hpos := h.capacity_pos key (by simp [hlir])
  have hinHot : key ∈ lirs.hotKeys := h.mem_hotKeys_iff.2 hlir
  obtain ⟨hlifted, hview, hhot⟩ := h.lift hid hlir hhandle
  have hcounts := lirs.sameCounts_lift .stack (some handle)
  set lifted := lirs.lift .stack (some handle)
  have hlirLifted : lifted.status? key = some .lir := (status?_of_view hview key).trans hlir
  have hqueue : lifted.length .queue = lirs.length .queue :=
    h.arranged.length_congr hlifted (keys_of_view hview .queue)
  have hghosts : lifted.length .ghosts = lirs.length .ghosts :=
    h.arranged.length_congr hlifted (keys_of_view hview .ghosts)
  obtain ⟨harranged, hsheds, hqueue', hghosts', hends⟩ := hlifted.prune
  have hcounts' := hcounts.trans hsheds.toSameCounts
  have hcounted : lifted.prune.lirCount = lifted.prune.hotKeys.length := by
    rw [hcounts'.lirCount_eq, hsheds.hotKeys_eq hlifted harranged, hhot, List.length_cons,
      List.length_erase_add_one hinHot, h.lirCount_eq]
  have hqueueLength : lifted.prune.length .queue = lirs.length .queue :=
    (hlifted.length_congr harranged hqueue').trans hqueue
  have hsize := h.size_le
  rw [size, ← hqueueLength, ← hcounts'.lirCount_eq] at hsize
  have hfull (other : κ) (hother : other ∈ lifted.prune.keys .queue ∨
      other ∈ lifted.prune.keys .ghosts) : lifted.prune.lirCount = lirs.lirQuota := by
    have hbefore := hsheds.shown.mem_of_mem hother
    rw [hview] at hbefore
    exact hcounts'.lirCount_eq.trans (h.full other hbefore)
  have hvalid := h.of_sameQuotas hpos hcounts'.toSameQuotas harranged hcounted
    (hcounts'.lirCount_eq.trans_le h.lirCount_le) (hqueueLength.trans_le h.queue_le) hsize
    (hghosts'.trans (hghosts.trans_le h.ghosts_le)) hfull fun _ ↦ hends
  exact ⟨hvalid, hcounts'.toSameQuotas, (hsheds.hotKeys_eq hlifted harranged).trans hhot,
    .inl (hsheds.status_of_lir hlifted hlirLifted)⟩

theorem Valid.touchLir (h : lirs.Valid) (hid : lirs.index[key]? = some id)
    (hlir : lirs.status? key = some .lir) {handle : SlotId}
    (hhandle : lirs.handle? .stack id = some handle) :
    Serves lirs (lirs.touchLir handle) key (key :: lirs.hotKeys.erase key) := by
  have hmem := (h.arranged.placed.not_mem_of_lir hlir).1
  have hlast := List.getLast?_eq_some_getLast (List.ne_nil_of_mem hmem)
  have hbottom : (lirs.lanes.get .stack).endId .back = some handle ↔
      (lirs.keys .stack).getLast? = some key := by
    rw [(h.arranged.wired.indexedBy .stack).endId_back_iff hhandle,
      h.arranged.wired.getLast?_iff hid]
  rw [touchLir_eq]
  split_ifs with hend
  · exact h.prune_lift hid hlir hhandle
  · apply h.serves_lift hid hlir hhandle hlast
    intro heq
    rw [hbottom] at hend
    exact hend (hlast.trans (congrArg some heq.symm))

/-! ## A resident HIR key -/

omit [LawfulBEq κ] in
theorem handle?_delist_of_lane_ne (lirs : Lirs κ) {lane other : LirsLane} (hne : other ≠ lane)
    (id : SlotId) (handle : Option SlotId) :
    (lirs.delist lane id handle).handle? other = lirs.handle? other := by
  have hsame : (lirs.relist lane id (lirs.lanes.get lane) none).handle? other =
      lirs.handle? other := handle?_relist_of_lane_ne lirs hne
  rw [← hsame]
  rfl

omit [LawfulBEq κ] in
theorem handle?_enlist_of_lane_ne (lirs : Lirs κ) {lane other : LirsLane} (hne : other ≠ lane)
    (id : SlotId) : (lirs.enlist lane id).handle? other = lirs.handle? other := by
  rw [enlist_eq, handle?_relist_of_lane_ne _ hne]

/-- A resident HIR key that is still in the stack becomes LIR. -/
theorem Valid.promoteResident (h : lirs.Valid) (hid : lirs.index[key]? = some id)
    (hstatus : lirs.status? key = some .resident) {handle : SlotId}
    (hhandle : lirs.handle? .stack id = some handle) :
    Serves lirs ((lirs.delist .queue id (lirs.handle? .queue id)).promote id handle) key
      (exchange lirs.lirQuota key lirs.hotKeys) := by
  have hpos := h.capacity_pos key (by simp [hstatus])
  have hmem := h.mem_queue.2 hstatus
  have hfull := h.full key (.inl hmem)
  have hstack : key ∈ lirs.keys .stack :=
    (h.arranged.wired.mem_keys_iff hid).2 ⟨handle, hhandle⟩
  have hcounts := lirs.sameCounts_delist .queue id (lirs.handle? .queue id)
  have hhandle' : (lirs.delist .queue id (lirs.handle? .queue id)).handle? .stack id =
      some handle := by
    rwa [handle?_delist_of_lane_ne _ (by decide)]
  have hplaced := h.arranged.placed.claim hstatus hstack
  obtain ⟨hwired, hview⟩ := h.arranged.wired.delist hid hmem
  rw [← hview] at hplaced
  set left := lirs.delist .queue id (lirs.handle? .queue id)
  have hnot : left.status? key ≠ some .lir := by
    rw [status?_of_view hview]
    exact fun hlir ↦ absurd (hstatus.symm.trans hlir) (by decide)
  have hhot : left.view.hot = lirs.view.hot := by
    rw [hview]
    rfl
  have hshorter : left.length .queue + 1 = lirs.length .queue := by
    rw [hwired.length_eq, keys_of_view hview, h.arranged.wired.length_eq]
    exact List.length_erase_add_one hmem
  have hghosts : left.length .ghosts = lirs.length .ghosts := by
    rw [hwired.length_eq, keys_of_view hview, h.arranged.wired.length_eq]
    rfl
  have hqueue := h.queue_le
  have hsize := h.size_le
  rw [size] at hsize
  exact h.promote hpos hfull hcounts.toSameQuotas hwired hid hhandle' hplaced hnot hhot
    hcounts.lirCount_eq (by omega) (by omega) (hghosts.trans_le h.ghosts_le)

/-- The state with a node of the queue put back on the stack and made the newest of its kind. -/
def refresh (lirs : Lirs κ) (id : SlotId) : Lirs κ :=
  (lirs.enlist .stack id).lift .queue (lirs.handle? .queue id)

omit [LawfulBEq κ] in
theorem sameCounts_refresh (lirs : Lirs κ) (id : SlotId) : lirs.SameCounts (lirs.refresh id) :=
  .of_index ⟨rfl, rfl, rfl, rfl⟩ rfl rfl

theorem Wired.refresh (h : lirs.Wired) (hid : lirs.index[key]? = some id)
    (hout : key ∉ lirs.keys .stack) (hmem : key ∈ lirs.keys .queue) :
    (lirs.refresh id).Wired ∧ (lirs.refresh id).view = lirs.view.refresh key := by
  obtain ⟨hstacked, hstackedView⟩ := h.enlist hid hout
  have hmem' : key ∈ (lirs.enlist .stack id).keys .queue := by
    rwa [keys_of_view hstackedView]
  have hlift := hstacked.lift hid hmem'
  rwa [handle?_enlist_of_lane_ne _ (by decide), hstackedView] at hlift

/-- A resident HIR key that has left the stack stays HIR. -/
theorem Valid.refresh (h : lirs.Valid) (hid : lirs.index[key]? = some id)
    (hstatus : lirs.status? key = some .resident) (hout : key ∉ lirs.keys .stack) :
    Serves lirs (lirs.refresh id) key lirs.hotKeys := by
  have hpos := h.capacity_pos key (by simp [hstatus])
  have hmem := h.mem_queue.2 hstatus
  have hcounts := lirs.sameCounts_refresh id
  obtain ⟨hwired, hview⟩ := h.arranged.wired.refresh hid hout hmem
  obtain ⟨hplaced, hhot⟩ := h.arranged.placed.refresh hstatus hout
  rw [← hview] at hplaced hhot
  set refreshed := lirs.refresh id
  have harranged : refreshed.Arranged none := ⟨hwired, hplaced⟩
  have hhotKeys : refreshed.hotKeys = lirs.hotKeys := by
    rw [harranged.hotKeys_eq, hhot, h.arranged.hotKeys_eq]
  have hcounted : refreshed.lirCount = refreshed.hotKeys.length := by
    rw [hcounts.lirCount_eq, hhotKeys, h.lirCount_eq]
  have hqueue : refreshed.length .queue = lirs.length .queue := by
    have hlonger : refreshed.keys .queue = key :: (lirs.keys .queue).erase key :=
      keys_of_view hview .queue
    rw [hwired.length_eq, hlonger, List.length_cons, List.length_erase_add_one hmem,
      h.arranged.wired.length_eq]
  have hghosts : refreshed.length .ghosts = lirs.length .ghosts :=
    h.arranged.length_congr harranged (keys_of_view hview .ghosts)
  have hsize := h.size_le
  rw [size, ← hqueue, ← hcounts.lirCount_eq] at hsize
  have hends (hlir : 0 < refreshed.lirCount) : refreshed.EndsInLir := by
    rw [hcounts.lirCount_eq] at hlir
    apply (h.ends hlir).push (keys_of_view hview .stack)
    · exact fun other _ ↦ status?_of_view hview other
    · exact fun hnil ↦ absurd hnil (LirsView.stack_ne_nil (h.hot_ne_nil hlir))
  have hvalid := h.of_sameQuotas hpos hcounts.toSameQuotas harranged hcounted
    (hcounts.lirCount_eq.trans_le h.lirCount_le) (hqueue.trans_le h.queue_le) hsize
    (hghosts.trans_le h.ghosts_le)
    (fun _ _ ↦ hcounts.lirCount_eq.trans (h.full key (.inl hmem))) hends
  exact ⟨hvalid, hcounts.toSameQuotas, hhotKeys, .inr ((status?_of_view hview key).trans hstatus)⟩

theorem Valid.touchResident (h : lirs.Valid) (hid : lirs.index[key]? = some id)
    (hstatus : lirs.status? key = some .resident) {node : LirsNode κ}
    (hnode : lirs.nodes.get? id = some node) :
    Serves lirs (lirs.touchResident id node.handles) key
      (if (lirs.keys .stack).contains key then exchange lirs.lirQuota key lirs.hotKeys
        else lirs.hotKeys) := by
  have hqueue : node.handles.queue = lirs.handle? .queue id := (handle?_eq hnode .queue).symm
  have hstack : node.handles.stack = lirs.handle? .stack id := (handle?_eq hnode .stack).symm
  rw [Lirs.touchResident, hqueue, hstack]
  cases hhandle : lirs.handle? .stack id with
  | some handle =>
    have hin := (h.arranged.wired.mem_keys_iff hid).2 ⟨handle, hhandle⟩
    rw [if_pos (List.contains_iff_mem.2 hin)]
    exact h.promoteResident hid hstatus hhandle
  | none =>
    have hout : key ∉ lirs.keys .stack := by
      rw [h.arranged.wired.mem_keys_iff hid, hhandle]
      simp
    rw [if_neg (mt List.contains_iff_mem.1 hout)]
    exact h.refresh hid hstatus hout

/-! ## A remembered key -/

/-- While room is made for a remembered key, it stays remembered in the stack alone, since it can no
longer be reached from the ghost list. -/
theorem Valid.reinstate (h : lirs.Valid) (hid : lirs.index[key]? = some id)
    (hstatus : lirs.status? key = some .nonResident) :
    (lirs.reinstate id (lirs.handle? .ghosts id)).Arranged (some key) ∧
      lirs.SameCounts (lirs.reinstate id (lirs.handle? .ghosts id)) ∧
      (lirs.reinstate id (lirs.handle? .ghosts id)).index[key]? = some id ∧
      (lirs.reinstate id (lirs.handle? .ghosts id)).status? key = some .nonResident ∧
      (lirs.reinstate id (lirs.handle? .ghosts id)).view.hot = lirs.view.hot ∧
      (lirs.reinstate id (lirs.handle? .ghosts id)).length .ghosts ≤ lirs.ghostQuota ∧
      (lirs.reinstate id (lirs.handle? .ghosts id)).HasRoom := by
  have hpos := h.capacity_pos key (by simp [hstatus])
  have hmem := h.mem_ghosts.2 hstatus
  have hcounts := lirs.sameCounts_delist .ghosts id (lirs.handle? .ghosts id)
  obtain ⟨hwired, hview⟩ := h.arranged.wired.delist hid hmem
  change (lirs.delist .ghosts id (lirs.handle? .ghosts id)).makeRoom.Arranged _ ∧
    lirs.SameCounts (lirs.delist .ghosts id (lirs.handle? .ghosts id)).makeRoom ∧ _
  set left := lirs.delist .ghosts id (lirs.handle? .ghosts id)
  have hmoving : left.Arranged (some key) := ⟨hwired, hview ▸ h.arranged.placed.takeBack hstatus⟩
  have hremembered : left.status? key = some .nonResident :=
    (status?_of_view hview key).trans hstatus
  have hfewer : left.length .ghosts ≤ left.ghostQuota := by
    have hlength : left.length .ghosts + 1 = lirs.length .ghosts := by
      rw [hwired.length_eq, keys_of_view hview, h.arranged.wired.length_eq]
      exact List.length_erase_add_one hmem
    have hle := h.ghosts_le
    rw [hcounts.ghostQuota_eq]
    omega
  have hresident : 0 < left.residentQuota := h.residentQuota_pos
  have hlir : left.lirCount < left.capacity := h.lirCount_lt hpos
  obtain ⟨harranged, hsheds, hghosts, hroom⟩ := hmoving.makeRoom hfewer hresident hlir
  obtain ⟨-, hnotQueue⟩ := hmoving.placed.mem_stack_of_nonResident hremembered
  have hnotGhosts : key ∉ left.keys .ghosts :=
    fun hin ↦ (hmoving.placed.status_of_mem_ghosts hin).2 rfl
  have hkept : left.makeRoom.status? key = some .nonResident :=
    (hsheds.shown.frame key hnotQueue hnotGhosts).2.2.trans hremembered
  have hid' : left.makeRoom.index[key]? = some id := by
    obtain ⟨id', hid'⟩ := Option.ne_none_iff_exists'.1
      (mt harranged.wired.status?_eq_none.2 (by rw [hkept]; simp))
    obtain rfl : id' = id := Option.some_inj.1
      ((hsheds.index_of key id' hid').symm.trans hid)
    exact hid'
  have hhot : left.makeRoom.view.hot = lirs.view.hot := by
    rw [hsheds.shown.hot_eq, hview]
    rfl
  exact ⟨harranged, hcounts.trans hsheds.toSameCounts, hid', hkept, hhot,
    hghosts.trans_eq hcounts.ghostQuota_eq, hroom⟩

/-- A remembered key is still in the stack when room has been made for it. -/
theorem Valid.exists_handle_reinstate (h : lirs.Valid) (hid : lirs.index[key]? = some id)
    (hstatus : lirs.status? key = some .nonResident) :
    ∃ handle, (lirs.reinstate id (lirs.handle? .ghosts id)).handle? .stack id = some handle := by
  obtain ⟨harranged, -, hid', hkept, -⟩ := h.reinstate hid hstatus
  exact (harranged.wired.mem_keys_iff hid').1 (harranged.placed.mem_stack_of_nonResident hkept).1

theorem Valid.touchNonResident (h : lirs.Valid) (hid : lirs.index[key]? = some id)
    (hstatus : lirs.status? key = some .nonResident) :
    Serves lirs (lirs.touchNonResident id (lirs.handle? .ghosts id)) key
      (exchange lirs.lirQuota key lirs.hotKeys) := by
  have hpos := h.capacity_pos key (by simp [hstatus])
  have hfull := h.full key (.inr (h.mem_ghosts.2 hstatus))
  obtain ⟨handle, hhandle⟩ := h.exists_handle_reinstate hid hstatus
  obtain ⟨harranged, hcounts, hid', hkept, hhot, hghosts, hqueue, hsize⟩ := h.reinstate hid hstatus
  have heq : lirs.touchNonResident id (lirs.handle? .ghosts id) =
      (lirs.reinstate id (lirs.handle? .ghosts id)).promote id handle := by
    simp only [Lirs.touchNonResident, hhandle]
  rw [heq]
  rw [hcounts.residentQuota_eq] at hqueue
  rw [size, hcounts.lirCount_eq, hcounts.capacity_eq] at hsize
  have hnot : (lirs.reinstate id (lirs.handle? .ghosts id)).status? key ≠ some .lir := by
    rw [hkept]
    decide
  exact h.promote hpos hfull hcounts.toSameQuotas harranged.wired hid' hhandle
    (harranged.placed.arrive hkept) hnot hhot hcounts.lirCount_eq hqueue hsize hghosts

/-! ## Reads and writes -/

/-- The hot keys after an access to `key`, by its status before. -/
def hotAfter (lirs : Lirs κ) (key : κ) : List κ :=
  match lirs.status? key with
  | none => if lirs.lirCount < lirs.lirQuota then key :: lirs.hotKeys else lirs.hotKeys
  | some .lir => key :: lirs.hotKeys.erase key
  | some .resident =>
    if (lirs.keys .stack).contains key then exchange lirs.lirQuota key lirs.hotKeys
    else lirs.hotKeys
  | some .nonResident => exchange lirs.lirQuota key lirs.hotKeys

/-- A tracked key is accessed without fail: the index leads to a node, and that of a LIR key has a
handle in the stack. -/
theorem Valid.access (h : lirs.Valid) (hid : lirs.index[key]? = some id) :
    (lirs.access id).1 = .ok () ∧ Serves lirs (lirs.access id).2 key (lirs.hotAfter key) := by
  obtain ⟨node, hnode, -⟩ := h.arranged.wired.exists_node hid
  have hstatus : lirs.status? key = some node.status := by
    rw [status?_eq hid, hnode, Option.map_some]
  have hstack : node.handles.stack = lirs.handle? .stack id := (handle?_eq hnode .stack).symm
  have hghosts : node.handles.ghosts = lirs.handle? .ghosts id := (handle?_eq hnode .ghosts).symm
  rw [hotAfter, hstatus]
  cases hnodeStatus : node.status with
  | lir =>
    rw [hnodeStatus] at hstatus
    obtain ⟨handle, hhandle⟩ := (h.arranged.wired.mem_keys_iff hid).1
      (h.arranged.placed.not_mem_of_lir hstatus).1
    have heq : lirs.access id = (.ok (), lirs.touchLir handle) := by
      simp only [Lirs.access, hnode, hnodeStatus, hstack, hhandle]
    rw [heq]
    exact ⟨rfl, h.touchLir hid hstatus hhandle⟩
  | resident =>
    rw [hnodeStatus] at hstatus
    have heq : lirs.access id = (.ok (), lirs.touchResident id node.handles) := by
      simp only [Lirs.access, hnode, hnodeStatus]
    rw [heq]
    exact ⟨rfl, h.touchResident hid hstatus hnode⟩
  | nonResident =>
    rw [hnodeStatus] at hstatus
    have heq : lirs.access id =
        (.ok (), lirs.touchNonResident id (lirs.handle? .ghosts id)) := by
      simp only [Lirs.access, hnode, hnodeStatus, hghosts]
    rw [heq]
    exact ⟨rfl, h.touchNonResident hid hstatus⟩

omit [LawfulBEq κ] in
theorem put_of_capacity_eq_zero (hzero : lirs.capacity = 0) :
    lirs.put key = (.error .capacity, lirs) := if_pos hzero

omit [LawfulBEq κ] in
theorem get_of_index_eq_none (hnone : lirs.index[key]? = none) :
    lirs.get key = (.error .notFound, lirs) := by
  rw [Lirs.get, hnone]

theorem Valid.put_serves (h : lirs.Valid) (hpos : 0 < lirs.capacity) (key : κ) :
    (lirs.put key).1 = .ok () ∧ Serves lirs (lirs.put key).2 key (lirs.hotAfter key) := by
  rw [Lirs.put, if_neg (Nat.ne_of_gt hpos)]
  cases hindex : lirs.index[key]? with
  | none =>
    have hnone := h.arranged.wired.status?_eq_none.2 hindex
    rw [hotAfter, hnone]
    exact ⟨rfl, h.enroll hpos hnone⟩
  | some id => exact h.access hindex

theorem Valid.get_serves (h : lirs.Valid) (htracked : lirs.status? key ≠ none) :
    (lirs.get key).1 = .ok () ∧ Serves lirs (lirs.get key).2 key (lirs.hotAfter key) := by
  rw [Lirs.get]
  cases hindex : lirs.index[key]? with
  | none => exact absurd (h.arranged.wired.status?_eq_none.2 hindex) htracked
  | some id => exact h.access hindex

theorem Valid.put (h : lirs.Valid) (key : κ) :
    (lirs.put key).2.Valid ∧ lirs.SameQuotas (lirs.put key).2 ∧
      (lirs.put key).1 = if lirs.capacity = 0 then .error .capacity else .ok () := by
  rcases Nat.eq_zero_or_pos lirs.capacity with hzero | hpos
  · rw [put_of_capacity_eq_zero hzero, if_pos hzero]
    exact ⟨h, SameQuotas.refl lirs, rfl⟩
  · obtain ⟨hok, hserves⟩ := h.put_serves hpos key
    rw [if_neg (Nat.ne_of_gt hpos)]
    exact ⟨hserves.valid, hserves.quotas, hok⟩

theorem Valid.get (h : lirs.Valid) (key : κ) :
    (lirs.get key).2.Valid ∧ lirs.SameQuotas (lirs.get key).2 ∧
      (lirs.get key).1 = if lirs.index.contains key then .ok () else .error .notFound := by
  rw [Std.HashMap.contains_eq_isSome_getElem?]
  by_cases hnone : lirs.index[key]? = none
  · rw [get_of_index_eq_none hnone, hnone]
    exact ⟨h, SameQuotas.refl lirs, rfl⟩
  · obtain ⟨hok, hserves⟩ := h.get_serves (mt h.arranged.wired.status?_eq_none.1 hnone)
    rw [if_pos (Option.isSome_iff_ne_none.2 hnone)]
    exact ⟨hserves.valid, hserves.quotas, hok⟩

/-! ## Construction -/

omit [LawfulBEq κ] in
theorem view_ofQuotas (capacity lirQuota residentQuota ghostQuota : Nat) :
    (ofQuotas capacity lirQuota residentQuota ghostQuota : Lirs κ).view =
      ⟨fun _ ↦ none, fun _ ↦ []⟩ := by
  apply LirsView.ext
  · funext key
    simp [view, status?, ofQuotas]
  · funext lane
    cases lane <;> rfl

omit [LawfulBEq κ] in
theorem arranged_ofQuotas (capacity lirQuota residentQuota ghostQuota : Nat) :
    (ofQuotas capacity lirQuota residentQuota ghostQuota : Lirs κ).Arranged none := by
  refine ⟨wired_empty .., ?_⟩
  rw [view_ofQuotas]
  exact ⟨fun _ ↦ List.nodup_nil, by simp [LirsView.Fits]⟩

omit [LawfulBEq κ] in
theorem valid_ofQuotas {capacity lirQuota residentQuota : Nat} (hlir : lirQuota ≤ capacity - 1)
    (hresident : 0 < residentQuota) (ghostQuota : Nat) :
    (ofQuotas capacity lirQuota residentQuota ghostQuota : Lirs κ).Valid where
  arranged := arranged_ofQuotas ..
  lirCount_eq := rfl
  lirCount_le := Nat.zero_le _
  queue_le := Nat.zero_le _
  size_le := Nat.zero_le _
  ghosts_le := Nat.zero_le _
  full _ hmem := (hmem.elim List.not_mem_nil List.not_mem_nil).elim
  ends hpos := absurd hpos (Nat.lt_irrefl 0)
  lirQuota_le := hlir
  residentQuota_pos := hresident
  capacity_pos key htracked := absurd (by simp [status?, ofQuotas]) htracked

omit [LawfulBEq κ] in
theorem create_eq {capacity : Nat} {lirRatio : Float} {maxNonResident : Option Nat}
    (h : create capacity lirRatio maxNonResident = .ok lirs) :
    lirs = ofQuotas capacity (lirShare capacity lirRatio) (residentShare capacity lirRatio)
      (maxNonResident.getD capacity) := by
  unfold create at h
  split_ifs at h
  cases h
  rfl

omit [LawfulBEq κ] in
theorem valid_create {capacity : Nat} {lirRatio : Float} {maxNonResident : Option Nat}
    (h : create capacity lirRatio maxNonResident = .ok lirs) : lirs.Valid := by
  rw [create_eq h]
  exact valid_ofQuotas (Nat.min_le_right _ _) (Nat.lt_of_lt_of_le Nat.zero_lt_one
    (Nat.le_max_right _ _)) _

end Lirs

end KeyHeat

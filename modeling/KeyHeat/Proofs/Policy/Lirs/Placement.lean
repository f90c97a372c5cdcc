import KeyHeat.Proofs.Policy.Lirs.Wiring

/-!
# The place of each key in the LIRS lists

The status of a key says which of the stack, the queue and the ghost list hold it. A change that
concerns one key only keeps all keys in place if that one ends up in place. While a remembered key
is on its way back into residency it is in the stack alone; every other key is in place.
-/

namespace KeyHeat.LirsView

variable {κ : Type}

/-- Which lists hold a key of the given status, or of none. -/
def Fits (status : Option LirsStatus) (inStack inQueue inGhosts moving : Prop) : Prop :=
  match status with
  | none => ¬inStack ∧ ¬inQueue ∧ ¬inGhosts ∧ ¬moving
  | some .lir => inStack ∧ ¬inQueue ∧ ¬inGhosts ∧ ¬moving
  | some .resident => inQueue ∧ ¬inGhosts ∧ ¬moving
  | some .nonResident => inStack ∧ ¬inQueue ∧ (inGhosts ↔ ¬moving)

/-- The lists hold the keys that fit them, once each; `moving` is the key on its way, if there is
one. -/
structure Placed (view : LirsView κ) (moving : Option κ) : Prop where
  nodup : ∀ lane, (view.keys lane).Nodup
  fits : ∀ key : κ, Fits (view.status? key) (key ∈ view.keys .stack) (key ∈ view.keys .queue)
    (key ∈ view.keys .ghosts) (some key = moving)

/-- The LIR keys of the stack, in its order. -/
def hot (view : LirsView κ) : List κ :=
  (view.keys .stack).filter fun key ↦ view.status? key = some .lir

/-- Two views tell the same of all keys but one. -/
def SameOff (key : κ) (view view' : LirsView κ) : Prop :=
  ∀ other ≠ key, view'.status? other = view.status? other ∧
    ∀ lane, other ∈ view'.keys lane ↔ other ∈ view.keys lane

variable {view view' view'' : LirsView κ} {moving moving' : Option κ} {key : κ}

/-! ## Reading off -/

section Reading

theorem Placed.mem_queue (h : view.Placed moving) :
    key ∈ view.keys .queue ↔ view.status? key = some .resident := by
  have hfits := h.fits key
  revert hfits
  rcases view.status? key with _ | _ | _ | _ <;> simp +contextual [Fits]

theorem Placed.mem_ghosts (h : view.Placed none) :
    key ∈ view.keys .ghosts ↔ view.status? key = some .nonResident := by
  have hfits := h.fits key
  revert hfits
  rcases view.status? key with _ | _ | _ | _ <;> simp +contextual [Fits]

theorem Placed.status_of_mem_ghosts (h : view.Placed moving) (hmem : key ∈ view.keys .ghosts) :
    view.status? key = some .nonResident ∧ some key ≠ moving := by
  have hfits := h.fits key
  revert hfits
  rcases view.status? key with _ | _ | _ | _ <;> simp +contextual [Fits, hmem]

theorem Placed.not_mem_of_lir (h : view.Placed moving) (hlir : view.status? key = some .lir) :
    key ∈ view.keys .stack ∧ key ∉ view.keys .queue ∧ key ∉ view.keys .ghosts ∧
      some key ≠ moving := by
  have hfits := h.fits key
  rwa [hlir] at hfits

theorem Placed.not_mem_of_none (h : view.Placed moving) (hnone : view.status? key = none) :
    key ∉ view.keys .stack ∧ key ∉ view.keys .queue ∧ key ∉ view.keys .ghosts ∧
      some key ≠ moving := by
  have hfits := h.fits key
  rwa [hnone] at hfits

theorem Placed.mem_stack_of_nonResident (h : view.Placed moving)
    (hstatus : view.status? key = some .nonResident) :
    key ∈ view.keys .stack ∧ key ∉ view.keys .queue := by
  have hfits := h.fits key
  rw [hstatus] at hfits
  exact ⟨hfits.1, hfits.2.1⟩

theorem Placed.moving_ne_of_resident (h : view.Placed moving)
    (hstatus : view.status? key = some .resident) :
    key ∉ view.keys .ghosts ∧ some key ≠ moving := by
  have hfits := h.fits key
  rw [hstatus] at hfits
  exact hfits.2

/-- A HIR key of the stack that is not in the queue is remembered. -/
theorem Placed.mem_ghosts_of_mem_stack (h : view.Placed none) (hmem : key ∈ view.keys .stack)
    (hlir : view.status? key ≠ some .lir) (hqueue : key ∉ view.keys .queue) :
    key ∈ view.keys .ghosts := by
  have hfits := h.fits key
  rw [h.mem_ghosts]
  rw [h.mem_queue] at hqueue
  revert hfits hlir hqueue
  rcases view.status? key with _ | _ | _ | _ <;> simp [Fits, hmem]

/-- A key that is in the queue or the ghost list is neither LIR nor moving. -/
theorem Placed.not_lir (h : view.Placed moving)
    (hmem : key ∈ view.keys .queue ∨ key ∈ view.keys .ghosts) :
    view.status? key ≠ some .lir ∧ some key ≠ moving := by
  rcases hmem with hqueue | hghosts
  · have hstatus := h.mem_queue.1 hqueue
    exact ⟨by simp [hstatus], (h.moving_ne_of_resident hstatus).2⟩
  · obtain ⟨hstatus, hne⟩ := h.status_of_mem_ghosts hghosts
    exact ⟨by simp [hstatus], hne⟩

theorem mem_hot : key ∈ view.hot ↔ key ∈ view.keys .stack ∧ view.status? key = some .lir := by
  simp [hot]

theorem Placed.mem_hot (h : view.Placed moving) :
    key ∈ view.hot ↔ view.status? key = some .lir := by
  rw [LirsView.mem_hot, and_iff_right_iff_imp]
  exact fun hlir ↦ (h.not_mem_of_lir hlir).1

theorem Placed.nodup_hot (h : view.Placed moving) : view.hot.Nodup := (h.nodup .stack).filter _

theorem stack_ne_nil (hhot : view.hot ≠ []) : view.keys .stack ≠ [] := by
  obtain ⟨hotKey, hmem⟩ := List.exists_mem_of_ne_nil _ hhot
  exact List.ne_nil_of_mem (LirsView.mem_hot.1 hmem).1

end Reading

/-! ## Changing one key -/

theorem SameOff.trans (h : SameOff key view view') (h' : SameOff key view' view'') :
    SameOff key view view'' := by
  intro other hne
  obtain ⟨hstatus, hmem⟩ := h other hne
  obtain ⟨hstatus', hmem'⟩ := h' other hne
  exact ⟨hstatus'.trans hstatus, fun lane ↦ (hmem' lane).trans (hmem lane)⟩

/-- A change that concerns one key keeps the others in place. -/
theorem Placed.update (h : view.Placed moving) (hsame : SameOff key view view')
    (hnodup : ∀ lane, (view'.keys lane).Nodup)
    (hmoving : ∀ other ≠ key, some other = moving' ↔ some other = moving)
    (hkey : Fits (view'.status? key) (key ∈ view'.keys .stack) (key ∈ view'.keys .queue)
      (key ∈ view'.keys .ghosts) (some key = moving')) :
    view'.Placed moving' where
  nodup := hnodup
  fits other := by
    by_cases heq : other = key
    · rw [heq]
      exact hkey
    · obtain ⟨hstatus, hmem⟩ := hsame other heq
      rw [hstatus, propext (hmem .stack), propext (hmem .queue), propext (hmem .ghosts),
        propext (hmoving other heq)]
      exact h.fits other

/-! ## Steps -/

section Steps

theorem keys_enlist (view : LirsView κ) (lane other : LirsLane) (key : κ) :
    (view.enlist lane key).keys other =
      if other = lane then key :: view.keys lane else view.keys other := rfl

theorem sameOff_enlist (view : LirsView κ) (lane : LirsLane) (key : κ) :
    SameOff key view (view.enlist lane key) := by
  intro other hne
  refine ⟨rfl, fun lane' ↦ ?_⟩
  rw [keys_enlist]
  split_ifs with heq
  · simp [heq, hne]
  · rfl

theorem nodup_enlist (hnodup : ∀ lane, (view.keys lane).Nodup) {lane : LirsLane}
    (hnot : key ∉ view.keys lane) (other : LirsLane) :
    ((view.enlist lane key).keys other).Nodup := by
  rw [keys_enlist]
  split_ifs
  · exact List.nodup_cons.2 ⟨hnot, hnodup lane⟩
  · exact hnodup other

theorem hot_congr (hstack : view'.keys .stack = view.keys .stack)
    (hagree : ∀ key ∈ view.keys .stack,
      view'.status? key = some .lir ↔ view.status? key = some .lir) : view'.hot = view.hot := by
  rw [hot, hot, hstack]
  apply List.filter_congr
  intro key hmem
  simp [hagree key hmem]

theorem hot_enlist_of_lir (hlir : view.status? key = some .lir) :
    (view.enlist .stack key).hot = key :: view.hot :=
  List.filter_cons_of_pos (decide_eq_true hlir)

theorem hot_enlist_of_not_lir (hnot : view.status? key ≠ some .lir) :
    (view.enlist .stack key).hot = view.hot :=
  List.filter_cons_of_neg (mt of_decide_eq_true hnot)

variable [BEq κ]

theorem keys_delist (view : LirsView κ) (lane other : LirsLane) (key : κ) :
    (view.delist lane key).keys other =
      if other = lane then (view.keys lane).erase key else view.keys other := rfl

theorem keys_lift (view : LirsView κ) (lane other : LirsLane) (key : κ) :
    (view.lift lane key).keys other =
      if other = lane then key :: (view.keys lane).erase key else view.keys other := rfl

variable [LawfulBEq κ]

@[simp]
theorem status?_setStatus_self (view : LirsView κ) (key : κ) (status : Option LirsStatus) :
    (view.setStatus key status).status? key = status := if_pos BEq.rfl

theorem status?_setStatus_of_ne (view : LirsView κ) (status : Option LirsStatus) {other : κ}
    (hne : other ≠ key) : (view.setStatus key status).status? other = view.status? other :=
  if_neg (by simpa using hne)

@[simp]
theorem status?_discard_self (view : LirsView κ) (key : κ) :
    (view.discard key).status? key = none := if_pos BEq.rfl

theorem status?_discard_of_ne (view : LirsView κ) {other : κ} (hne : other ≠ key) :
    (view.discard key).status? other = view.status? other := if_neg (by simpa using hne)

theorem sameOff_setStatus (view : LirsView κ) (key : κ) (status : Option LirsStatus) :
    SameOff key view (view.setStatus key status) :=
  fun _ hne ↦ ⟨status?_setStatus_of_ne view status hne, fun _ ↦ Iff.rfl⟩

theorem sameOff_delist (view : LirsView κ) (lane : LirsLane) (key : κ) :
    SameOff key view (view.delist lane key) := by
  intro other hne
  refine ⟨rfl, fun lane' ↦ ?_⟩
  rw [keys_delist]
  split_ifs with heq
  · rw [heq, List.mem_erase_of_ne hne]
  · rfl

theorem sameOff_lift (view : LirsView κ) (lane : LirsLane) (key : κ) :
    SameOff key view (view.lift lane key) := by
  intro other hne
  refine ⟨rfl, fun lane' ↦ ?_⟩
  rw [keys_lift]
  split_ifs with heq
  · rw [heq, List.mem_cons, or_iff_right hne, List.mem_erase_of_ne hne]
  · rfl

theorem sameOff_discard (view : LirsView κ) (key : κ) : SameOff key view (view.discard key) :=
  fun _ hne ↦ ⟨status?_discard_of_ne view hne, fun _ ↦ List.mem_erase_of_ne hne⟩

theorem nodup_delist (hnodup : ∀ lane, (view.keys lane).Nodup) (lane : LirsLane) (key : κ)
    (other : LirsLane) : ((view.delist lane key).keys other).Nodup := by
  rw [keys_delist]
  split_ifs
  · exact (hnodup lane).erase key
  · exact hnodup other

theorem nodup_lift (hnodup : ∀ lane, (view.keys lane).Nodup) (lane : LirsLane) (key : κ)
    (other : LirsLane) : ((view.lift lane key).keys other).Nodup := by
  rw [keys_lift]
  split_ifs
  · exact List.nodup_cons.2 ⟨(hnodup lane).not_mem_erase, (hnodup lane).erase key⟩
  · exact hnodup other

theorem mem_lift {lane : LirsLane} (hmem : key ∈ view.keys lane) {other : κ} {lane' : LirsLane} :
    other ∈ (view.lift lane key).keys lane' ↔ other ∈ view.keys lane' := by
  by_cases heq : other = key
  · subst heq
    rw [keys_lift]
    split_ifs with hlane
    · simp [hlane, hmem]
    · rfl
  · exact (sameOff_lift view lane key other heq).2 lane'

/-- Moving a key within a list keeps all keys in place. -/
theorem Placed.lift (h : view.Placed moving) {lane : LirsLane} (hmem : key ∈ view.keys lane) :
    (view.lift lane key).Placed moving where
  nodup := nodup_lift h.nodup lane key
  fits other := by
    rw [propext (mem_lift hmem), propext (mem_lift hmem), propext (mem_lift hmem)]
    exact h.fits other

/-! ## The hot keys after a step -/

theorem hot_setStatus (hnot : key ∉ view.hot) {status : Option LirsStatus}
    (hnew : key ∉ view.keys .stack ∨ status ≠ some .lir) :
    (view.setStatus key status).hot = view.hot := by
  apply hot_congr
  · rfl
  intro other hmem
  by_cases heq : other = key
  · subst heq
    have hold : view.status? other ≠ some .lir := fun hlir ↦ hnot (mem_hot.2 ⟨hmem, hlir⟩)
    have hnew' : status ≠ some .lir := hnew.resolve_left (not_not_intro hmem)
    simp [hold, hnew']
  · rw [status?_setStatus_of_ne view status heq]

theorem hot_delist_stack (view : LirsView κ) (key : κ) :
    (view.delist .stack key).hot = view.hot.erase key := (List.erase_filter ..).symm

/-- What a key is changed to makes no difference to the hot keys without it. -/
theorem erase_hot_setStatus (hnodup : (view.keys .stack).Nodup) (key : κ)
    (status : Option LirsStatus) :
    (view.setStatus key status).hot.erase key = view.hot.erase key := by
  have hgone : key ∉ (view.delist .stack key).keys .stack := hnodup.not_mem_erase
  calc
    _ = ((view.delist .stack key).setStatus key status).hot := (hot_delist_stack ..).symm
    _ = (view.delist .stack key).hot :=
      hot_setStatus (fun hmem ↦ hgone (LirsView.mem_hot.1 hmem).1) (.inl hgone)
    _ = _ := hot_delist_stack view key

theorem hot_discard (hnodup : (view.keys .stack).Nodup) (key : κ) :
    (view.discard key).hot = view.hot.erase key := by
  calc
    _ = (view.delist .stack key).hot := by
      apply hot_congr
      · rfl
      intro other hmem
      rw [status?_discard_of_ne view (hnodup.mem_erase_iff.1 hmem).1]
      rfl
    _ = _ := hot_delist_stack view key

theorem hot_lift_of_lir (hlir : view.status? key = some .lir) :
    (view.lift .stack key).hot = key :: view.hot.erase key := by
  calc
    _ = key :: (view.delist .stack key).hot := List.filter_cons_of_pos (decide_eq_true hlir)
    _ = _ := by rw [hot_delist_stack]

end Steps

end KeyHeat.LirsView

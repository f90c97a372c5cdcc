import KeyHeat.Proofs.Container.KeyCount
import KeyHeat.Proofs.Policy.Lirs.Access

/-!
# What a valid LIRS state reports of itself

The index is as large as the three kinds of keys together, and the hot keys are those that are LIR.
The self-check goes through the nodes, their handles and the counts, and finds nothing wrong.
-/

namespace KeyHeat.Lirs

variable {κ : Type} [BEq κ] [Hashable κ] {lirs : Lirs κ} {key : κ} {id : SlotId}

/-! ## Sizes and hot keys -/

/-- The three kinds of keys are what is tracked. -/
theorem Valid.size_index [LawfulBEq κ] (h : lirs.Valid) :
    lirs.index.size = lirs.lirCount + lirs.length .queue + lirs.length .ghosts := by
  have hwired := h.arranged.wired
  have hplaced := h.arranged.placed
  have hapart : (lirs.keys .queue).Disjoint (lirs.keys .ghosts) := by
    intro key hqueue
    exact (hplaced.moving_ne_of_resident (h.mem_queue.1 hqueue)).1
  have hhot : lirs.hotKeys.Disjoint (lirs.keys .queue ++ lirs.keys .ghosts) := by
    intro key hmem hin
    obtain ⟨-, hqueue, hghosts, -⟩ := hplaced.not_mem_of_lir (h.mem_hotKeys_iff.1 hmem)
    exact (List.mem_append.1 hin).elim hqueue hghosts
  have hnodupHot : lirs.hotKeys.Nodup := by
    rw [h.arranged.hotKeys_eq]
    exact hplaced.nodup_hot
  have hnodup : (lirs.hotKeys ++ (lirs.keys .queue ++ lirs.keys .ghosts)).Nodup :=
    hnodupHot.append ((hwired.nodup_keys .queue).append (hwired.nodup_keys .ghosts) hapart) hhot
  have hmem (key : κ) : key ∈ lirs.hotKeys ++ (lirs.keys .queue ++ lirs.keys .ghosts) ↔
      key ∈ lirs.index := by
    rw [List.mem_append, List.mem_append, ← h.mem_status_iff,
      Std.HashMap.mem_iff_isSome_getElem?, Option.isSome_iff_ne_none]
    exact not_congr hwired.status?_eq_none
  calc
    _ = (lirs.hotKeys ++ (lirs.keys .queue ++ lirs.keys .ghosts)).length :=
      (length_eq_size hnodup hmem).symm
    _ = lirs.hotKeys.length + ((lirs.keys .queue).length + (lirs.keys .ghosts).length) := by
      rw [List.length_append, List.length_append]
    _ = _ := by
      rw [h.lirCount_eq, hwired.length_eq, hwired.length_eq, Nat.add_assoc]

theorem Valid.nodup_hotKeys (h : lirs.Valid) : lirs.hotKeys.Nodup := by
  rw [h.arranged.hotKeys_eq]
  exact h.arranged.placed.nodup_hot

theorem Valid.mem_hotKeys (h : lirs.Valid) : key ∈ lirs.hotKeys ↔ lirs.isHot key = true := by
  rw [isHot, decide_eq_true_eq]
  exact h.mem_hotKeys_iff

/-! ## The self-check -/

/-- The handles of a node lead to it. -/
theorem Wired.isLinked_eq (h : lirs.Wired) {node : LirsNode κ}
    (hnode : lirs.nodes.get? id = some node) (lane : LirsLane) :
    lirs.isLinked id node lane = (node.handles.get lane).isSome := by
  rw [isLinked, ← handle?_eq hnode]
  cases hhandle : lirs.handle? lane id with
  | none => rfl
  | some handle =>
    rw [Option.any_some, (h.indexedBy lane).get?_eq_some_iff.2 hhandle]
    simp

/-- A node is in the lists that its status asks for. -/
theorem Arranged.isPlaced (h : lirs.Arranged none) {node : LirsNode κ}
    (hnode : lirs.nodes.get? id = some node) :
    node.status.isPlaced node.handles.stack.isSome node.handles.queue.isSome
      node.handles.ghosts.isSome = true := by
  have hid : lirs.index[node.key]? = some id := by
    rw [h.wired.index_iff, key?, hnode, Option.map_some]
  have hfits := h.placed.fits node.key
  change LirsView.Fits (lirs.status? node.key) (_ ∈ lirs.keys .stack) (_ ∈ lirs.keys .queue)
    (_ ∈ lirs.keys .ghosts) _ at hfits
  rw [status?_eq hid, hnode, Option.map_some, ← h.wired.isSome_handle_iff hid hnode,
    ← h.wired.isSome_handle_iff hid hnode, ← h.wired.isSome_handle_iff hid hnode] at hfits
  change LirsView.Fits _ (node.handles.stack.isSome = true) (node.handles.queue.isSome = true)
    (node.handles.ghosts.isSome = true) _ at hfits
  cases hstatus : node.status with
  | lir =>
    rw [hstatus] at hfits
    simpa [LirsView.Fits, LirsStatus.isPlaced, and_assoc] using hfits
  | resident =>
    rw [hstatus] at hfits
    simpa [LirsView.Fits, LirsStatus.isPlaced] using hfits
  | nonResident =>
    rw [hstatus] at hfits
    obtain ⟨hstack, hqueue, hghosts⟩ := hfits
    simp_all [LirsStatus.isPlaced]

theorem Arranged.checkNode_eq (h : lirs.Arranged none) {node : LirsNode κ}
    (hnode : lirs.nodes.get? id = some node) : lirs.checkNode id node = .ok () := by
  have hstack : lirs.isLinked id node .stack = node.handles.stack.isSome :=
    h.wired.isLinked_eq hnode .stack
  have hqueue : lirs.isLinked id node .queue = node.handles.queue.isSome :=
    h.wired.isLinked_eq hnode .queue
  have hghosts : lirs.isLinked id node .ghosts = node.handles.ghosts.isSome :=
    h.wired.isLinked_eq hnode .ghosts
  simp [checkNode, hstack, hqueue, hghosts, h.isPlaced hnode, pure, Except.pure]

/-- As many nodes are LIR as are counted. -/
theorem Valid.countP_nodes (h : lirs.Valid) :
    lirs.nodes.toList.countP (fun (_, node) ↦ node.status = .lir) = lirs.lirCount := by
  have hwired := h.arranged.wired
  have hkey (entry : SlotId × LirsNode κ) (hmem : entry ∈ lirs.nodes.toList) :
      lirs.index[entry.2.key]? = some entry.1 := by
    rw [hwired.index_iff, key?, SlotPool.mem_toList.1 hmem, Option.map_some]
  have hnodup : ((lirs.nodes.toList.filter fun (_, node) ↦ node.status = .lir).map
      (·.2.key)).Nodup := by
    apply List.Nodup.map_on _ (lirs.nodes.nodup_ids.of_map.filter _)
    intro entry hentry other hother heq
    have hid := hkey entry (List.mem_of_mem_filter hentry)
    rw [heq, hkey other (List.mem_of_mem_filter hother), Option.some_inj] at hid
    have hnode := SlotPool.mem_toList.1 (List.mem_of_mem_filter hentry)
    rw [← hid, SlotPool.mem_toList.1 (List.mem_of_mem_filter hother), Option.some_inj] at hnode
    exact Prod.ext hid.symm hnode.symm
  have hperm : ((lirs.nodes.toList.filter fun (_, node) ↦ node.status = .lir).map
      (·.2.key)).Perm lirs.hotKeys := by
    apply (List.perm_ext_iff_of_nodup hnodup h.nodup_hotKeys).2
    intro key
    rw [h.mem_hotKeys_iff, List.mem_map]
    constructor
    · rintro ⟨entry, hentry, rfl⟩
      obtain ⟨hmem, hlir⟩ := List.mem_filter.1 hentry
      rw [status?_eq (hkey entry hmem), SlotPool.mem_toList.1 hmem, Option.map_some,
        of_decide_eq_true hlir]
    · intro hlir
      obtain ⟨id, hid⟩ := Option.ne_none_iff_exists'.1
        (mt hwired.status?_eq_none.2 (by rw [hlir]; simp))
      obtain ⟨node, hnode, hnodeKey⟩ := hwired.exists_node hid
      rw [status?_eq hid, hnode, Option.map_some, Option.some_inj] at hlir
      exact ⟨(id, node), List.mem_filter.2 ⟨SlotPool.mem_toList.2 hnode, decide_eq_true hlir⟩,
        hnodeKey⟩
  rw [List.countP_eq_length_filter, h.lirCount_eq, ← hperm.length_eq, List.length_map]

/-- Where every entry passes, all of them do. -/
theorem forM_eq_ok {β ε : Type} {entries : List β} {check : β → Except ε Unit}
    (h : ∀ entry ∈ entries, check entry = .ok ()) : entries.forM check = .ok () := by
  induction entries with
  | nil => rfl
  | cons entry entries ih =>
    change (check entry >>= fun _ ↦ entries.forM check) = .ok ()
    rw [h entry List.mem_cons_self]
    exact ih fun other hmem ↦ h other (List.mem_cons_of_mem entry hmem)

/-- The last node of the stack is LIR if any is. -/
theorem Valid.isLir_bottom (h : lirs.Valid) (hpos : 0 < lirs.lirCount) :
    (((lirs.lanes.get .stack).peek? .back).bind lirs.nodes.get?).any (·.status = .lir) =
      true := by
  have hwired := h.arranged.wired
  have hlast := List.getLast?_eq_some_getLast (LirsView.stack_ne_nil (h.hot_ne_nil hpos))
  obtain ⟨id, hid⟩ := hwired.exists_index (List.mem_of_getLast? hlast)
  obtain ⟨node, hnode, -⟩ := hwired.exists_node hid
  have hlir := h.ends hpos _ hlast
  rw [status?_eq hid, hnode, Option.map_some, Option.some_inj] at hlir
  rw [hwired.peek?_back hid hlast, Option.bind_some, hnode, Option.any_some]
  exact decide_eq_true hlir

theorem Valid.check_eq (h : lirs.Valid) : lirs.check = .ok () := by
  have hwired := h.arranged.wired
  have hstack : lirs.lanes.stack.checkLinks = .ok () := (hwired.indexedBy .stack).checkLinks_eq
  have hqueue : lirs.lanes.queue.checkLinks = .ok () := (hwired.indexedBy .queue).checkLinks_eq
  have hghosts : lirs.lanes.ghosts.checkLinks = .ok () := (hwired.indexedBy .ghosts).checkLinks_eq
  have hnodes : (lirs.nodes.toList.forM fun (id, node) ↦ lirs.checkNode id node) = .ok () := by
    apply forM_eq_ok
    rintro ⟨id, node⟩ hmem
    exact h.arranged.checkNode_eq (SlotPool.mem_toList.1 hmem)
  have hends : ¬(0 < lirs.lirCount ∧
      (((lirs.lanes.get .stack).peek? .back).bind lirs.nodes.get?).any (·.status = .lir) =
        false) := by
    rintro ⟨hpos, hnot⟩
    rw [h.isLir_bottom hpos] at hnot
    cases hnot
  simp only [check, hstack, hqueue, hghosts, hnodes, h.countP_nodes, hwired.size_index]
  simp [hends, Nat.not_lt.2 h.lirCount_le, Nat.not_lt.2 h.size_le, Nat.not_lt.2 h.ghosts_le, bind,
    Except.bind, pure, Except.pure]

end KeyHeat.Lirs
